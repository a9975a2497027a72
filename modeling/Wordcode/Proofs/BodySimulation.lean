import Wordcode.Proofs.Simulation
import Wordcode.Proofs.Slots

/-!
The code of a body carries out the evaluation of its tree, given that its calls do. Operands go by
structural induction, and loops by induction on their rounds.
-/

namespace Wordcode

theorem Instruction.length_jump (offset : Word) : (Instruction.jump offset).encode.length = 2 := rfl

theorem Instruction.length_jumpIfFalse (offset : Word) :
    (Instruction.jumpIfFalse offset).encode.length = 2 := rfl

theorem Statement.width_pos (s : Statement) : 0 < s.width := by
  cases s with
  | cond test yes no span => cases no <;> simp only [Statement.width] <;> omega
  | _ => simp only [Statement.width]; omega

theorem Holds.statement_le {code : Array Word} {pc : Nat} {l : Linkage} {s : Statement}
    (h : Holds code pc (s.layout l)) :
    pc + s.width ≤ code.size := by
  rw [← s.length_layout l]
  exact h.size_le (by rw [Statement.length_layout]; exact Statement.width_pos s)

namespace Exec

def Calling (limit : Nat) (code : Array Word) (fs : List Function) (target : String → Nat)
    (fuel depth : Nat) (call : Calls) : Prop :=
  ∀ {pc : Nat} {below slots temps args : List Word} {callers : List Caller} {name : String},
    Holds code pc (Instruction.call (.ofNat args.length) (.ofNat (target name))).encode →
    (∃ f, fs.find? (·.name == name) = some f ∧ f.params.length = args.length) →
    2 * args.length ≤ code.size →
    Simulates limit code fuel ⟨pc, below, slots, temps ++ args, depth, callers⟩ (call name args)
      (fun v c => c = ⟨pc + 3, below, slots, temps ++ [v], depth, callers⟩)

structure Linked (limit : Nat) (code : Array Word) (fs : List Function) (l : Linkage)
    (fuel depth : Nat) (call : Calls) : Prop where
  size : code.size < addressSpace
  count : l.names.length < addressSpace
  distinct : l.names.Nodup
  calls : Calling limit code fs l.target fuel depth call

section Operands

variable {limit : Nat} {code : Array Word} {fuel pc depth : Nat} {below slots temps : List Word}
  {callers : List Caller}

theorem simulates_binary {op : BinaryOperator} {a b : Word}
    (h : Holds code pc (Instruction.binary op).encode) :
    Simulates limit code fuel ⟨pc, below, slots, temps ++ [a] ++ [b], depth, callers⟩
      (op.eval a b) (fun v c => c = ⟨pc + 1, below, slots, temps ++ [v], depth, callers⟩) := by
  unfold BinaryOperator.eval
  cases hw : op.apply a b with
  | ok w => exact (moves_binary h hw).simulates (simulates_pure rfl)
  | error e => exact simulates_throw (raises_binary h hw) (.arithmetic e pc)

variable {fs : List Function} {l : Linkage} {call : Calls} {env : Environment}
  {declared : List String}

theorem Linked.toIndex?_slot (hl : Linked limit code fs l fuel depth call) {name : String}
    (hn : name ∈ l.names) : Word.toIndex? (l.slot name) = some (l.names.idxOf name) := by
  have hlt := List.idxOf_lt_length_of_mem hn
  exact Word.toIndex?_ofNat (Nat.lt_trans hlt hl.count)

theorem Linked.simulates_var (hl : Linked limit code fs l fuel depth call) {name : String}
    (hn : name ∈ l.names) (h : Holds code pc (Instruction.load (l.slot name)).encode) :
    Simulates limit code fuel ⟨pc, below, l.names.map env, temps, depth, callers⟩ (pure (env name))
      (fun v c => c = ⟨pc + 2, below, l.names.map env, temps ++ [v], depth, callers⟩) := by
  have hlt := List.idxOf_lt_length_of_mem hn
  have hw : (l.names.map env)[l.names.idxOf name]? = some (env name) := by
    rw [List.getElem?_map, List.getElem?_eq_getElem hlt, List.getElem_idxOf hlt]
    rfl
  exact (moves_load h (hl.toIndex?_slot hn) hw).simulates (simulates_pure rfl)

mutual
theorem Linked.operand (hl : Linked limit code fs l fuel depth call) (hd : declared ⊆ l.names)
    (below : List Word) (callers : List Caller) :
    (x : Operand) → x.errors fs declared = [] → (pc : Nat) → (temps : List Word) →
    Holds code pc (x.layout l) →
    Simulates limit code fuel ⟨pc, below, l.names.map env, temps, depth, callers⟩ (x.eval call env)
      (fun v c => c = ⟨pc + x.width, below, l.names.map env, temps ++ [v], depth, callers⟩)
  | .int w, _, pc, temps, h => (moves_int h).simulates (simulates_pure rfl)
  | .var name span, he, pc, temps, h => hl.simulates_var (hd (useErrors_eq_nil.mp he)) h
  | .unary op x, he, pc, temps, h => by
    have hop := h.append_right
    rw [Operand.length_layout] at hop
    refine (hl.operand hd below callers x he pc temps h.append_left).bind ?_
    rintro v _ rfl
    exact (moves_unary hop).simulates (simulates_pure rfl)
  | .chain first rest, he, pc, temps, h | .group first rest, he, pc, temps, h => by
    obtain ⟨hfirst, hrest⟩ := List.append_eq_nil_iff.mp he
    have htail := h.append_right
    rw [Operand.length_layout] at htail
    refine (hl.operand hd below callers first hfirst pc temps h.append_left).bind ?_
    rintro v _ rfl
    rw [Operand.width, ← Nat.add_assoc]
    exact hl.links hd below callers rest hrest v _ temps htail
  | .call name args span, he, pc, temps, h => by
    obtain ⟨hargs, hcall⟩ := List.append_eq_nil_iff.mp he
    have hins := h.append_right
    rw [Operand.length_layoutAll] at hins
    refine (hl.operands hd below callers args hargs pc temps h.append_left).bind ?_
    rintro ws _ ⟨hlen, rfl⟩
    have htwo := Operand.two_mul_length_le args
    have hsize := hins.size_le (Nat.zero_lt_succ 2)
    rw [← hlen] at hins hcall htwo
    rw [Operand.width, ← Nat.add_assoc]
    exact hl.calls hins (callErrors_eq_nil.mp hcall) (by omega)
theorem Linked.links (hl : Linked limit code fs l fuel depth call) (hd : declared ⊆ l.names)
    (below : List Word) (callers : List Caller) :
    (rest : Links) → Links.errors fs declared rest = [] → (a : Word) → (pc : Nat) →
    (temps : List Word) → Holds code pc (Links.layout l rest) →
    Simulates limit code fuel ⟨pc, below, l.names.map env, temps ++ [a], depth, callers⟩
      (Links.eval call env rest a)
      (fun v c => c = ⟨pc + Links.width rest, below, l.names.map env, temps ++ [v], depth, callers⟩)
  | [], _, a, pc, temps, _ => simulates_pure rfl
  | (op, x) :: rest, he, a, pc, temps, h => by
    obtain ⟨hx, hrest⟩ := List.append_eq_nil_iff.mp he
    have hop := h.append_left.append_right
    have htail := h.append_right
    rw [List.length_append, Operand.length_layout] at htail
    rw [Operand.length_layout] at hop
    refine (hl.operand hd below callers x hx pc (temps ++ [a]) h.append_left.append_left).bind ?_
    rintro b _ rfl
    refine (simulates_binary hop).bind ?_
    rintro w _ rfl
    rw [Links.width, ← Nat.add_assoc, ← Nat.add_assoc]
    exact hl.links hd below callers rest hrest w _ temps htail
theorem Linked.operands (hl : Linked limit code fs l fuel depth call) (hd : declared ⊆ l.names)
    (below : List Word) (callers : List Caller) :
    (xs : List Operand) → Operand.errorsAll fs declared xs = [] → (pc : Nat) →
    (temps : List Word) → Holds code pc (Operand.layoutAll l xs) →
    Simulates limit code fuel ⟨pc, below, l.names.map env, temps, depth, callers⟩
      (Operand.evalAll call env xs)
      (fun ws c => ws.length = xs.length ∧
        c = ⟨pc + Operand.widthAll xs, below, l.names.map env, temps ++ ws, depth, callers⟩)
  | [], _, pc, temps, _ => simulates_pure ⟨rfl, by rw [List.append_nil]; rfl⟩
  | x :: rest, he, pc, temps, h => by
    obtain ⟨hx, hrest⟩ := List.append_eq_nil_iff.mp he
    have htail := h.append_right
    rw [Operand.length_layout] at htail
    refine (hl.operand hd below callers x hx pc temps h.append_left).bind ?_
    rintro w _ rfl
    refine (hl.operands hd below callers rest hrest _ (temps ++ [w]) htail).bind ?_
    rintro ws _ ⟨hlen, rfl⟩
    refine simulates_pure ⟨congrArg (· + 1) hlen, ?_⟩
    rw [Operand.widthAll, ← Nat.add_assoc, List.append_assoc, List.singleton_append]
end

end Operands

def Returns (code : Array Word) (below : List Word) (depth : Nat) (callers : List Caller)
    (w : Word) (c : Config) : Prop :=
  ∃ pc slots temps,
    Holds code pc Instruction.ret.encode ∧ c = ⟨pc, below, slots, temps ++ [w], depth, callers⟩

/-- Where statements leave a run: at `stop`, which follows them, or in front of a return. -/
def Lands (code : Array Word) (names : List String) (below : List Word) (depth : Nat)
    (callers : List Caller) (stop : Nat) : Flow → Config → Prop
  | .next env, c => c = ⟨stop, below, names.map env, [], depth, callers⟩
  | .returned w, c => Returns code below depth callers w c

section Statements

variable {limit : Nat} {code : Array Word} {fuel depth pc mid stop : Nat} {names : List String}
  {below : List Word} {callers : List Caller} {c : Config}

theorem Simulates.andThen {r : Evaluation Flow} {rest : Environment → Evaluation Flow}
    (h : Simulates limit code fuel c r (Lands code names below depth callers mid))
    (hrest : ∀ env, Simulates limit code fuel ⟨mid, below, names.map env, [], depth, callers⟩
      (rest env) (Lands code names below depth callers stop)) :
    Simulates limit code fuel c (do let flow ← r; flow.andThen rest)
      (Lands code names below depth callers stop) := by
  refine h.bind ?_
  intro flow c' hc
  cases flow with
  | next env =>
    cases hc
    exact hrest env
  | returned w => exact simulates_pure hc

/-- Statements that a jump follows. -/
theorem Simulates.jump {r : Evaluation Flow}
    (h : Simulates limit code fuel c r (Lands code names below depth callers mid))
    (hjump : ∀ env, Moves limit code ⟨mid, below, names.map env, [], depth, callers⟩
      ⟨stop, below, names.map env, [], depth, callers⟩) :
    Simulates limit code fuel c r (Lands code names below depth callers stop) := by
  rw [← bind_pure r]
  refine h.bind ?_
  intro flow c' hc
  cases flow with
  | next env =>
    cases hc
    exact (hjump env).simulates (simulates_pure rfl)
  | returned w => exact simulates_pure hc

/-- A test that ends at `mid`, where a jump leads to `no` if it failed. -/
theorem simulates_branch {test : Evaluation Word} {α : Type} {yes no : Evaluation α}
    {Q : α → Config → Prop} {slots : List Word} {offset : Word}
    (htest : Simulates limit code fuel c test
      (fun v c => c = ⟨mid, below, slots, [] ++ [v], depth, callers⟩))
    (hjump : Holds code mid (Instruction.jumpIfFalse offset).encode)
    (hoffset : ((mid + 1 : Nat) : Int) + offset.toInt = stop) (hstop : stop ≤ code.size)
    (hsize : code.size < addressSpace)
    (hyes : Simulates limit code fuel ⟨mid + 2, below, slots, [], depth, callers⟩ yes Q)
    (hno : Simulates limit code fuel ⟨stop, below, slots, [], depth, callers⟩ no Q) :
    Simulates limit code fuel c (do let w ← test; if w = 0 then no else yes) Q := by
  refine htest.bind ?_
  rintro w _ rfl
  by_cases hw : w = 0
  · subst hw
    rw [if_pos rfl]
    exact (moves_jumpIfFalse_taken hjump hoffset hstop hsize).simulates hno
  · rw [if_neg hw]
    exact (moves_jumpIfFalse_passed hjump hw).simulates hyes

/-- A loop whose test stands from `pc` to `mid` and whose body ends at `back`. Going back to the
test takes a step, so there are no more rounds than steps. -/
theorem simulates_rounds {test : Environment → Evaluation Word}
    {body : Environment → Evaluation Flow} {back : Nat} {offset : Word}
    (htest : ∀ env, Simulates limit code fuel ⟨pc, below, names.map env, [], depth, callers⟩
      (test env) (fun v c => c = ⟨mid, below, names.map env, [] ++ [v], depth, callers⟩))
    (hjump : Holds code mid (Instruction.jumpIfFalse offset).encode)
    (hoffset : ((mid + 1 : Nat) : Int) + offset.toInt = stop) (hstop : stop ≤ code.size)
    (hsize : code.size < addressSpace)
    (hbody : ∀ env, Simulates limit code fuel ⟨mid + 2, below, names.map env, [], depth, callers⟩
      (body env) (Lands code names below depth callers back))
    (hback : ∀ env, Moves limit code ⟨back, below, names.map env, [], depth, callers⟩
      ⟨pc, below, names.map env, [], depth, callers⟩)
    (k : Nat) (hk : k ≤ fuel) (env : Environment) :
    Simulates limit code k ⟨pc, below, names.map env, [], depth, callers⟩ (rounds test body k env)
      (Lands code names below depth callers stop) := by
  induction k generalizing env with
  | zero => exact simulates_outOfFuel
  | succ k ih =>
    refine simulates_branch ((htest env).of_le hk) hjump hoffset hstop hsize ?_ (simulates_pure rfl)
    refine ((hbody env).of_le hk).andThen ?_
    intro env'
    exact (hback env').simulates_succ (ih (by omega) env')

variable {fs : List Function} {l : Linkage} {call : Calls} {env : Environment}

theorem Linked.moves_store (hl : Linked limit code fs l fuel depth call) {name : String} {w : Word}
    (hn : name ∈ l.names) (h : Holds code pc (Instruction.store (l.slot name)).encode) :
    Moves limit code ⟨pc, below, l.names.map env, [] ++ [w], depth, callers⟩
      ⟨pc + 2, below, l.names.map (env.set name w), [], depth, callers⟩ := by
  rw [← Environment.map_set hl.distinct env w hn]
  refine Exec.moves_store h (hl.toIndex?_slot hn) ?_
  rw [List.length_map]
  exact List.idxOf_lt_length_of_mem hn

mutual
theorem Linked.statement (hl : Linked limit code fs l fuel depth call) (below : List Word)
    (callers : List Caller) :
    (s : Statement) → (declared : List String) → declared ⊆ l.names → s.declares ⊆ l.names →
    s.errors fs declared = [] → (pc : Nat) → Holds code pc (s.layout l) → (env : Environment) →
    Simulates limit code fuel ⟨pc, below, l.names.map env, [], depth, callers⟩
      (s.exec call fuel env) (Lands code l.names below depth callers (pc + s.width))
  | .declare name x span, declared, hd, hs, he, pc, h, env => by
    have hx := (List.append_eq_nil_iff.mp he).2
    refine (hl.operand hd below callers x hx pc [] h.append_left).bind ?_
    rintro w _ rfl
    have hn : name ∈ l.names := hs (List.mem_singleton.mpr rfl)
    exact (hl.moves_store hn (h.after (x.length_layout l))).simulates (simulates_pure rfl)
  | .assign name x span, declared, hd, hs, he, pc, h, env => by
    obtain ⟨hx, hname⟩ := List.append_eq_nil_iff.mp he
    refine (hl.operand hd below callers x hx pc [] h.append_left).bind ?_
    rintro w _ rfl
    have hn : name ∈ l.names := hd (useErrors_eq_nil.mp hname)
    exact (hl.moves_store hn (h.after (x.length_layout l))).simulates (simulates_pure rfl)
  | .discard x span, declared, hd, hs, he, pc, h, env => by
    refine (hl.operand hd below callers x he pc [] h.append_left).bind ?_
    rintro w _ rfl
    exact (moves_pop (h.after (x.length_layout l))).simulates (simulates_pure rfl)
  | .ret x span, declared, hd, hs, he, pc, h, env => by
    refine (hl.operand hd below callers x he pc [] h.append_left).bind ?_
    rintro w _ rfl
    exact simulates_pure ⟨_, _, _, h.after (x.length_layout l), rfl⟩
  | .cond test yes none span, declared, hd, hs, he, pc, h, env => by
    obtain ⟨htest, hyes⟩ := List.append_eq_nil_iff.mp he
    have hcode := hl.size
    have hend := h.statement_le
    simp only [Statement.width, ← Nat.add_assoc] at hend ⊢
    simp only [Statement.layout, Holds.append_iff, List.length_append, Operand.length_layout,
      Instruction.length_jumpIfFalse, ← Nat.add_assoc] at h
    obtain ⟨⟨hltest, hjump⟩, hlyes⟩ := h
    exact simulates_branch (hl.operand hd below callers test htest pc [] hltest) hjump
      (Word.add_forward (by omega) (by omega)) hend hcode
      (hl.block below callers yes declared hd hs hyes _ hlyes env) (simulates_pure rfl)
  | .cond test yes (some no) span, declared, hd, hs, he, pc, h, env => by
    obtain ⟨hfirst, hno⟩ := List.append_eq_nil_iff.mp he
    obtain ⟨htest, hyes⟩ := List.append_eq_nil_iff.mp hfirst
    obtain ⟨hsyes, hsno⟩ := List.append_subset.mp hs
    have hcode := hl.size
    have hend := h.statement_le
    simp only [Statement.width, ← Nat.add_assoc] at hend ⊢
    simp only [Statement.layout, Holds.append_iff, List.length_append, Operand.length_layout,
      Block.length_layout, Instruction.length_jump, Instruction.length_jumpIfFalse,
      ← Nat.add_assoc] at h
    obtain ⟨⟨⟨⟨hltest, hjump⟩, hlyes⟩, hskip⟩, hlno⟩ := h
    have hd' := List.append_subset.mpr ⟨hd, hsyes⟩
    have hoffset : ((pc + test.width + 1 : Nat) : Int)
        + (Int64.ofNat (Block.width yes + 3)).toInt
          = (pc + test.width + 2 + Block.width yes + 2 : Nat) :=
      Word.add_forward (by omega) (by omega)
    refine simulates_branch (hl.operand hd below callers test htest pc [] hltest) hjump hoffset
      (by omega) hcode ?_ ?_
    · refine (hl.block below callers yes declared hd hsyes hyes _ hlyes env).jump ?_
      intro env'
      exact moves_jump hskip (Word.add_forward (by omega) (by omega)) hend hcode
    · exact hl.block below callers no _ hd' hsno hno _ hlno env
  | .loop test body span, declared, hd, hs, he, pc, h, env => by
    obtain ⟨htest, hbody⟩ := List.append_eq_nil_iff.mp he
    have hcode := hl.size
    have hend := h.statement_le
    simp only [Statement.width, ← Nat.add_assoc] at hend ⊢
    simp only [Statement.layout, Holds.append_iff, List.length_append, Operand.length_layout,
      Block.length_layout, Instruction.length_jumpIfFalse, ← Nat.add_assoc] at h
    obtain ⟨⟨⟨hltest, hjump⟩, hlbody⟩, hback⟩ := h
    refine simulates_rounds (fun env => hl.operand hd below callers test htest pc [] hltest) hjump
      (Word.add_forward (by omega) (by omega)) hend hcode
      (fun env => hl.block below callers body declared hd hs hbody _ hlbody env) ?_ fuel
      (Nat.le_refl fuel) env
    intro env'
    exact moves_jump hback (Word.add_backward (by omega) (by omega)) (by omega) hcode
theorem Linked.block (hl : Linked limit code fs l fuel depth call) (below : List Word)
    (callers : List Caller) :
    (b : Block) → (declared : List String) → declared ⊆ l.names → Block.declares b ⊆ l.names →
    Block.errors fs declared b = [] → (pc : Nat) → Holds code pc (Block.layout l b) →
    (env : Environment) →
    Simulates limit code fuel ⟨pc, below, l.names.map env, [], depth, callers⟩
      (Block.exec call fuel b env) (Lands code l.names below depth callers (pc + Block.width b))
  | [], declared, hd, hb, he, pc, h, env => simulates_pure rfl
  | s :: rest, declared, hd, hb, he, pc, h, env => by
    obtain ⟨hs, hrest⟩ := List.append_eq_nil_iff.mp he
    obtain ⟨hbs, hbrest⟩ := List.append_subset.mp hb
    refine (hl.statement below callers s declared hd hbs hs pc h.append_left env).andThen ?_
    intro env'
    rw [Block.width, ← Nat.add_assoc]
    exact hl.block below callers rest _ (List.append_subset.mpr ⟨hd, hbs⟩) hbrest hrest _
      (h.after (s.length_layout l)) env'
end

end Statements

end Exec

end Wordcode
