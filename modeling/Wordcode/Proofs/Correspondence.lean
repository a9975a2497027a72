import Mathlib.Data.List.Forall2
import Wordcode.Proofs.Dispatch

/-!
Two streams side by side. Main statement: from corresponding addresses both run in lockstep on equal
stacks, and end alike up to the address that a fault tells.
-/

namespace Wordcode

def Fault.located (address : Nat) : Fault → Fault
  | stackOverflow capacity => stackOverflow capacity
  | stackUnderflow _ => stackUnderflow address
  | divisionByZero _ => divisionByZero address
  | invalidShift amount _ => invalidShift amount address
  | invalidOpcode word _ => invalidOpcode word address
  | truncated _ => truncated address
  | invalidSlot slot _ => invalidSlot slot address
  | invalidStackAdjust count _ => invalidStackAdjust count address
  | invalidJumpTarget target _ => invalidJumpTarget target address
  | callDepthExceeded limit => callDepthExceeded limit
  | fellOffEnd _ => fellOffEnd address

@[simp] theorem Fault.located_located (f : Fault) (a b : Nat) :
    (f.located a).located b = f.located b := by
  cases f <;> rfl

def State.moved (s : State) (pc : Nat) (callers : List Caller) : State := { s with pc, callers }

namespace Exec

section Local

variable {α β : Type}

def moved (address pc : Nat) (callers : List Caller) :
    EStateM.Result Fault State α → EStateM.Result Fault State α
  | .ok a s => .ok a (s.moved pc callers)
  | .error f s => .error (f.located address) (s.moved pc callers)

/-- What `y` does at `address` is what `x` does, wherever they are done. -/
def Local (address : Nat) (x y : Exec α) : Prop :=
  ∀ s pc callers, y (s.moved pc callers) = moved address pc callers (x s)

variable {x y : Exec α} {address : Nat}

theorem local_pure (a : α) : Local address (pure a) (pure a) := fun _ _ _ => rfl

theorem Local.bind {k l : α → Exec β} (h : Local address x y)
    (hk : ∀ a, Local address (k a) (l a)) : Local address (x >>= k) (y >>= l) := by
  intro s pc callers
  have hy := h s pc callers
  cases hx : x s with
  | ok a t =>
    rw [hx] at hy
    rw [bind_ok hx, bind_ok hy]
    exact hk a t pc callers
  | error f t =>
    rw [hx] at hy
    rw [bind_error hx, bind_error hy]
    rfl

/-- An action that does the same everywhere stays where it is. -/
theorem Local.stays (h : Local address x x) {s t : State} {a : α} (hx : x s = .ok a t) :
    t.pc = s.pc ∧ t.callers = s.callers := by
  have hsame := h s s.pc s.callers
  rw [hx] at hsame
  have hself : x s = .ok a (t.moved s.pc s.callers) := hsame
  rw [hx] at hself
  have ht : t = t.moved s.pc s.callers := (EStateM.Result.ok.inj hself).2
  have hpc := congrArg State.pc ht
  have hcallers := congrArg State.callers ht
  exact ⟨hpc, hcallers⟩

end Local

section Actions

variable (a a' : Nat)

theorem pop_local : Local a' (pop a) (pop a') := by
  intro s pc callers
  rw [pop_apply, pop_apply]
  change (if s.frame.floor < s.frame.top then _ else _) = _
  split <;> rfl

theorem push_local (w : Word) : Local a' (push w) (push w) := by
  intro s pc callers
  rw [push_apply, push_apply]
  change (if s.frame.top < s.stack.size then _ else _) = _
  split <;> rfl

theorem localIndex_local (slot : Word) : Local a' (localIndex slot a) (localIndex slot a') := by
  intro s pc callers
  rw [localIndex_apply, localIndex_apply]
  cases slot.toIndex? with
  | none => rfl
  | some i =>
    change (if i < s.frame.locals then _ else _) = _
    dsimp only
    split <;> rfl

theorem load_local (slot : Word) : Local a' (loadSlot slot a) (loadSlot slot a') := by
  refine (localIndex_local a a' slot).bind fun i s pc callers => ?_
  rw [get_bind, get_bind]
  exact (push_local a' _).bind (fun _ => local_pure none) s pc callers

theorem store_local (slot : Word) : Local a' (storeSlot slot a) (storeSlot slot a') :=
  (localIndex_local a a' slot).bind fun _ => (pop_local a a').bind fun _ _ _ _ => rfl

theorem adjust_local (count : Word) : Local a' (adjust count a) (adjust count a') := by
  intro s pc callers
  rw [adjust_apply, adjust_apply]
  cases count.toIndex? with
  | none => rfl
  | some locals =>
    change (if s.frame.base + locals ≤ s.stack.size then _ else _) = _
    dsimp only
    split <;> rfl

theorem throw_local (e : ArithmeticError) :
    Local a' (throw (.ofArithmetic a e) : Exec (Option Word)) (throw (.ofArithmetic a' e)) := by
  cases e <;> exact fun _ _ _ => rfl

/-- Only jumps, calls and returns depend on where they are. -/
theorem perform_local (limit : Nat) (code code' : Array Word) {i : Instruction}
    (hjump : i.offset? = none) (hcall : i.opcode ≠ .call) (hret : i.opcode ≠ .ret) :
    Local a' (i.perform limit code a) (i.perform limit code' a') := by
  cases i with
  | unary op =>
    exact (pop_local a a').bind fun _ => (push_local a' _).bind fun _ => local_pure none
  | binary op =>
    refine (pop_local a a').bind fun y => (pop_local a a').bind fun x => ?_
    cases op.apply x y with
    | ok w => exact (push_local a' w).bind fun _ => local_pure none
    | error e => exact throw_local a a' e
  | load slot => exact load_local a a' slot
  | store slot => exact store_local a a' slot
  | int w => exact (push_local a' w).bind fun _ => local_pure none
  | stackAdjust count => exact (adjust_local a a' count).bind fun _ => local_pure none
  | pop => exact (pop_local a a').bind fun _ => local_pure none
  | jumpIfFalse offset | jump offset => cases hjump
  | call argc target => exact absurd rfl hcall
  | ret => exact absurd rfl hret

end Actions

end Exec

section States

variable (R : Nat → Nat → Prop)

structure Caller.Matches (c d : Caller) : Prop where
  frame : d.frame = c.frame
  argc : d.argc = c.argc
  pc : R c.pc d.pc

structure State.Matches (s t : State) : Prop where
  stack : t.stack = s.stack
  capacity : t.capacity = s.capacity
  frame : t.frame = s.frame
  depth : t.depth = s.depth
  pc : R s.pc t.pc
  callers : List.Forall₂ (Caller.Matches R) s.callers t.callers

end States

section Matches

variable {R : Nat → Nat → Prop} {s t : State}

theorem State.Matches.eq_moved (h : s.Matches R t) : t = s.moved t.pc t.callers := by
  obtain ⟨hstack, hcapacity, hframe, hdepth, -, -⟩ := h
  cases t
  cases hstack
  cases hcapacity
  cases hframe
  cases hdepth
  rfl

theorem State.Matches.goTo (h : s.Matches R t) {n n' : Nat} (hn : R n n') :
    { s with pc := n }.Matches R { t with pc := n' } :=
  ⟨h.stack, h.capacity, h.frame, h.depth, hn, h.callers⟩

end Matches

namespace Exec

section Paired

variable {α β : Type} {R : Nat → Nat → Prop} {s t : State} {x y : Exec α} {k l : α → Exec β}

inductive Paired (R : Nat → Nat → Prop) :
    EStateM.Result Fault State α → EStateM.Result Fault State α → Prop where
  | ok {a : α} {s t : State} (states : s.Matches R t) : Paired R (.ok a s) (.ok a t)
  | error {f g : Fault} {s t : State} (faults : g.located 0 = f.located 0) :
      Paired R (.error f s) (.error g t)

theorem Paired.bind (h : Paired R (x s) (y t))
    (hk : ∀ a s' t', s'.Matches R t' → Paired R (k a s') (l a t')) :
    Paired R ((x >>= k) s) ((y >>= l) t) := by
  generalize hx : x s = r, hy : y t = r' at h
  cases h with
  | ok states =>
    rw [bind_ok hx, bind_ok hy]
    exact hk _ _ _ states
  | error faults =>
    rw [bind_error hx, bind_error hy]
    exact .error faults

theorem Paired.of_same {q q' r r' : EStateM.Result Fault State α} (h : SameEnd q r)
    (h' : SameEnd q' r') (hp : Paired R r r') : Paired R q q' := by
  cases hp with
  | ok states =>
    cases h
    cases h'
    exact .ok states
  | error faults =>
    cases h
    cases h'
    exact .error faults

/-- An action that does the same everywhere ends alike from matching states. -/
theorem Local.paired {a a' : Nat} (h : Local a' x y) (hself : Local a x x)
    (hm : s.Matches R t) : Paired R (x s) (y t) := by
  have hy := h s t.pc t.callers
  rw [← hm.eq_moved] at hy
  rw [hy]
  cases hx : x s with
  | ok v u =>
    obtain ⟨hpc, hcallers⟩ := hself.stays hx
    exact .ok ⟨rfl, rfl, rfl, rfl, hpc ▸ hm.pc, hcallers ▸ hm.callers⟩
  | error f u => exact .error (Fault.located_located f a' 0)

end Paired

end Exec

def Hits (code : Array Word) (target : Option Word) (n : Nat) : Prop :=
  ∃ w, target = some w ∧ w.toIndex? = some n ∧ n ≤ code.size

/-- Instructions at `a` and `a'` that do the same, and lead to corresponding addresses. -/
inductive Instruction.Pairs (code code' : Array Word) (R : Nat → Nat → Prop) (a a' : Nat) :
    Instruction → Instruction → Prop where
  | plain {i : Instruction} (straight : i.offset? = none) (stays : i.opcode ≠ .call)
      (next : R (a + i.width) (a' + i.width)) : Pairs code code' R a a' i i
  | jump {offset offset' : Word} {n n' : Nat}
      (leads : Hits code ((Instruction.jump offset).jumpTarget a) n)
      (leads' : Hits code' ((Instruction.jump offset').jumpTarget a') n') (lands : R n n') :
      Pairs code code' R a a' (.jump offset) (.jump offset')
  | jumpIfFalse {offset offset' : Word} {n n' : Nat}
      (leads : Hits code ((Instruction.jumpIfFalse offset).jumpTarget a) n)
      (leads' : Hits code' ((Instruction.jumpIfFalse offset').jumpTarget a') n')
      (lands : R n n') (next : R (a + 2) (a' + 2)) :
      Pairs code code' R a a' (.jumpIfFalse offset) (.jumpIfFalse offset')
  | call {target target' : Word} {n n' : Nat} (argc : Word) (index : target.toIndex? = some n)
      (index' : target'.toIndex? = some n') (inside : n < code.size) (inside' : n' < code'.size)
      (begins : R n n') (next : R (a + 3) (a' + 3)) :
      Pairs code code' R a a' (.call argc target) (.call argc target')

def Corresponding (code code' : Array Word) (R : Nat → Nat → Prop) : Prop :=
  ∀ a a', R a a' → (a = code.size ∧ a' = code'.size) ∨
    ∃ i i', decode code a = .ok i ∧ decode code' a' = .ok i' ∧ i.Pairs code code' R a a' i'

namespace Exec

section Steps

variable {R : Nat → Nat → Prop} {code code' : Array Word} {s t : State} {a a' n n' : Nat}
  {limit : Nat}

theorem leap_of_hits {target : Option Word} (h : Hits code target n) (s : State) :
    leap code a target s = .ok () { s with pc := n } := by
  obtain ⟨w, rfl, hn, hle⟩ := h
  simp only [leap, hn, if_pos hle]
  rfl

/-- The jump itself may stand where nothing follows. -/
theorem leap_paired {target target' : Option Word} (h : Hits code target n)
    (h' : Hits code' target' n') (hn : R n n') (hm : s.Matches R t) (pc pc' : Nat) :
    Paired R (leap code a target { s with pc }) (leap code' a' target' { t with pc := pc' }) := by
  rw [leap_of_hits h, leap_of_hits h']
  exact .ok (hm.goTo hn)

theorem pop_paired (hm : s.Matches R t) : Paired R (pop a s) (pop a' t) :=
  (pop_local a a').paired (pop_local a a) hm

theorem push_paired (w : Word) (hm : s.Matches R t) : Paired R (push w s) (push w t) :=
  (push_local 0 w).paired (push_local 0 w) hm

theorem enter_paired {argc target target' : Word} (index : target.toIndex? = some n)
    (index' : target'.toIndex? = some n') (inside : n < code.size) (inside' : n' < code'.size)
    (begins : R n n') (hm : s.Matches R t) :
    Paired R (enter limit code argc target a s) (enter limit code' argc target' a' t) := by
  rw [enter_apply, enter_apply, hm.frame, hm.depth]
  cases argc.toIndex? with
  | none => exact .error rfl
  | some count =>
    simp only [index, index', if_neg (Nat.not_le.mpr inside), if_neg (Nat.not_le.mpr inside')]
    split
    next => exact .error rfl
    next =>
      split
      next => exact .error rfl
      next =>
        exact .ok ⟨hm.stack, hm.capacity, rfl, rfl, begins, .cons ⟨rfl, rfl, hm.pc⟩ hm.callers⟩

theorem leave_paired (w : Word) (hm : s.Matches R t) : Paired R (leave w s) (leave w t) := by
  have hcallers := hm.callers
  rw [leave_apply, leave_apply]
  cases hs : s.callers with
  | nil =>
    rw [hs, List.forall₂_nil_left_iff] at hcallers
    rw [hcallers]
    exact .ok hm
  | cons c callers =>
    rw [hs] at hcallers
    obtain ⟨d, callers', hd, hrest, ht⟩ := List.forall₂_cons_left_iff.mp hcallers
    rw [ht]
    refine (push_paired w ?_).bind fun _ _ _ hm' => .ok hm'
    refine ⟨hm.stack, hm.capacity, ?_, congrArg (· - 1) hm.depth, hd.pc, hrest⟩
    rw [hd.frame, hd.argc]

/-- Paired instructions end alike, and control goes on at corresponding addresses. -/
theorem perform_paired {i i' : Instruction} (hp : i.Pairs code code' R a a' i')
    (hm : s.Matches R t) (limit : Nat) :
    Paired R (i.perform limit code a { s with pc := a + i.width })
      (i'.perform limit code' a' { t with pc := a' + i'.width }) := by
  cases hp with
  | plain straight stays next =>
    by_cases hret : i.opcode = .ret
    · obtain rfl := Instruction.eq_ret hret
      exact (pop_paired (hm.goTo next)).bind fun w _ _ hm' => leave_paired w hm'
    · exact (perform_local a a' limit code code' straight stays hret).paired
        (perform_local a a limit code code straight stays hret) (hm.goTo next)
  | jump leads leads' lands =>
    exact (leap_paired leads leads' lands hm _ _).bind fun _ _ _ hm' => .ok hm'
  | jumpIfFalse leads leads' lands next =>
    refine (pop_paired (hm.goTo next)).bind fun w s' t' hm' => ?_
    split
    next => exact (leap_paired leads leads' lands hm' _ _).bind fun _ _ _ hm' => .ok hm'
    next => exact .ok hm'
  | call argc index index' inside inside' begins next =>
    exact (enter_paired index index' inside inside' begins (hm.goTo next)).bind
      fun _ _ _ hm' => .ok hm'

variable (hR : Corresponding code code' R) (hsize : code.size < addressSpace)
  (hsize' : code'.size < addressSpace)

include hR hsize hsize'

theorem step_paired (hm : s.Matches R t) (limit : Nat) :
    Paired R (step limit code s) (step limit code' t) := by
  rcases hR s.pc t.pc hm.pc with ⟨hs, ht⟩ | ⟨i, i', hi, hi', hp⟩
  · rw [step_apply, step_apply, hs, ht, Array.getElem?_eq_none (Nat.le_refl _),
      Array.getElem?_eq_none (Nat.le_refl _)]
    exact .error rfl
  · have hsame := step_same hsize limit s
    have hsame' := step_same hsize' limit t
    rw [stepDecoded_of_decode limit hi] at hsame
    rw [stepDecoded_of_decode limit hi'] at hsame'
    exact .of_same hsame hsame' (perform_paired hp hm limit)

/-- From matching states both streams take equally many steps and end alike. -/
theorem runFrom_paired (hm : s.Matches R t) (limit steps : Nat) :
    (runFrom limit code steps s).map (fun o => o.result.mapError (Fault.located 0)) =
      (runFrom limit code' steps t).map (fun o => o.result.mapError (Fault.located 0)) := by
  induction steps generalizing s t with
  | zero => rfl
  | succ steps ih =>
    have hstep := step_paired hR hsize hsize' hm limit
    rw [runFrom, runFrom, EStateM.run, EStateM.run]
    generalize step limit code s = r, step limit code' t = r' at hstep
    cases hstep with
    | @ok answer s' t' states =>
      cases answer with
      | none => exact ih states
      | some w => rfl
    | error faults =>
      dsimp only [Option.map_some, Except.mapError]
      rw [faults]

end Steps

end Exec

end Wordcode
