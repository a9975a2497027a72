import Wordcode.Proofs.Action

/-!
Configurations: what counts of a state. Each action is described by the configuration it starts from
and the one it leads to, unless the stack overflows.
-/

namespace Wordcode

structure Config where
  pc : Nat
  /-- The words below the frame. -/
  below : List Word
  slots : List Word
  temps : List Word
  depth : Nat
  callers : List Caller

def Config.live (c : Config) : List Word := c.below ++ c.slots ++ c.temps

structure State.Shows (s : State) (c : Config) : Prop where
  live : s.stack.toList.take s.frame.top = c.live
  base : s.frame.base = c.below.length
  locals : s.frame.locals = c.slots.length
  top : s.frame.top = c.live.length
  pc : s.pc = c.pc
  depth : s.depth = c.depth
  callers : s.callers = c.callers

namespace Exec

/-- From every state that shows `c` the action answers `a` and leads to one that shows `c'`, or the
stack overflows. -/
def Does {α : Type} (x : Exec α) (c : Config) (a : α) (c' : Config) : Prop :=
  ∀ s : State, s.Shows c →
    (∃ s', x s = .ok a s' ∧ s'.Shows c') ∨ ∃ n s', x s = .error (.stackOverflow n) s'

def Raises {α : Type} (x : Exec α) (c : Config) (f : Fault) : Prop :=
  ∀ s : State, s.Shows c →
    (∃ s', x s = .error f s') ∨ ∃ n s', x s = .error (.stackOverflow n) s'

section Sequence

variable {α β : Type} {x : Exec α} {k : α → Exec β} {c c' c'' : Config} {a : α} {b : β} {f : Fault}

theorem does_pure (a : α) (c : Config) : Does (pure a) c a c :=
  fun s hs => Or.inl ⟨s, rfl, hs⟩

theorem raises_throw (f : Fault) (c : Config) : Raises (throw f : Exec α) c f :=
  fun s _ => Or.inl ⟨s, rfl⟩

theorem Does.bind (hx : Does x c a c') (hk : Does (k a) c' b c'') : Does (x >>= k) c b c'' := by
  intro s hs
  rcases hx s hs with ⟨s', hrun, hs'⟩ | ⟨n, s', hrun⟩
  · rw [bind_ok hrun]
    exact hk s' hs'
  · exact Or.inr ⟨n, s', bind_error hrun⟩

theorem Does.bind_raises (hx : Does x c a c') (hk : Raises (k a) c' f) :
    Raises (x >>= k) c f := by
  intro s hs
  rcases hx s hs with ⟨s', hrun, hs'⟩ | ⟨n, s', hrun⟩
  · rw [bind_ok hrun]
    exact hk s' hs'
  · exact Or.inr ⟨n, s', bind_error hrun⟩

theorem Raises.bind (hx : Raises x c f) : Raises (x >>= k) c f := by
  intro s hs
  rcases hx s hs with ⟨s', hrun⟩ | ⟨n, s', hrun⟩
  · exact Or.inl ⟨s', bind_error hrun⟩
  · exact Or.inr ⟨n, s', bind_error hrun⟩

end Sequence

section Actions

variable {pc depth : Nat} {below slots temps : List Word} {callers : List Caller} {w : Word}
  (address : Nat)

theorem pop_does :
    Does (pop address) ⟨pc, below, slots, temps ++ [w], depth, callers⟩ w
      ⟨pc, below, slots, temps, depth, callers⟩ := by
  intro s hs
  have hlive := hs.live
  rw [Config.live, ← List.append_assoc] at hlive
  have htop : s.frame.top = (below ++ slots ++ temps).length + 1 := by
    rw [hs.top, Config.live, ← List.append_assoc, List.length_append, List.length_singleton]
  have hfloor : s.frame.floor < s.frame.top := by
    rw [Frame.floor, hs.base, hs.locals, htop]
    simp only [List.length_append]
    omega
  have hcell : s.stack.getD (s.frame.top - 1) 0 = w := by
    have hget := congrArg (fun ws => ws[(below ++ slots ++ temps).length]?) hlive
    rw [List.getElem?_take_of_lt (by omega), Array.getElem?_toList,
      List.getElem?_concat_length] at hget
    rw [htop, Nat.add_sub_cancel, Array.getD_eq_getD_getElem?, hget]
    rfl
  left
  rw [pop_apply, if_pos hfloor, hcell]
  refine ⟨_, rfl, ?_, hs.base, hs.locals, ?_, hs.pc, hs.depth, hs.callers⟩
  · rw [htop] at hlive
    have hcut := congrArg (List.take (below ++ slots ++ temps).length) hlive
    rw [List.take_take, List.take_left, Nat.min_eq_left (by omega)] at hcut
    rw [htop, Nat.add_sub_cancel]
    exact hcut
  · rw [htop, Nat.add_sub_cancel]
    rfl

theorem push_does (w : Word) :
    Does (push w) ⟨pc, below, slots, temps, depth, callers⟩ ()
      ⟨pc, below, slots, temps ++ [w], depth, callers⟩ := by
  intro s hs
  rw [push_apply]
  by_cases hroom : s.frame.top < s.stack.size
  · rw [if_pos hroom]
    left
    refine ⟨_, rfl, ?_, hs.base, hs.locals, ?_, hs.pc, hs.depth, hs.callers⟩
    · have hlen : s.frame.top < s.stack.toList.length := by rwa [Array.length_toList]
      rw [Array.toList_setIfInBounds, List.take_add_one, List.take_set_of_le (Nat.le_refl _),
        hs.live, List.getElem?_set_self hlen]
      exact List.append_assoc _ _ _
    · rw [hs.top]
      simp only [Config.live, List.length_append, List.length_singleton]
      omega
  · rw [if_neg hroom]
    exact Or.inr ⟨_, _, rfl⟩

theorem immediate_does {code : Array Word} (h : code[pc]? = some w) :
    Does (immediate code address) ⟨pc, below, slots, temps, depth, callers⟩ w
      ⟨pc + 1, below, slots, temps, depth, callers⟩ := by
  intro s hs
  rw [immediate_apply, hs.pc, h]
  exact Or.inl ⟨_, rfl, hs.live, hs.base, hs.locals, hs.top, rfl, hs.depth, hs.callers⟩

theorem follow_does {code : Array Word} {offset target : Word} {i : Nat}
    (h : code[pc]? = some offset) (ht : Word.add? (.ofNat pc) offset = some target)
    (hi : target.toIndex? = some i) (hle : i ≤ code.size) :
    Does (follow code address) ⟨pc, below, slots, temps, depth, callers⟩ ()
      ⟨i, below, slots, temps, depth, callers⟩ := by
  intro s hs
  simp only [follow_apply, hs.pc, h, ht, hi, if_pos hle]
  exact Or.inl ⟨_, rfl, hs.live, hs.base, hs.locals, hs.top, rfl, hs.depth, hs.callers⟩

/-- Reads a slot and pushes what it holds. -/
theorem load_does {slot : Word} {i : Nat} (hi : slot.toIndex? = some i) (hw : slots[i]? = some w) :
    Does (do
        let j ← localIndex slot address
        let s ← get
        push (s.stack.getD j 0)
        return none : Exec (Option Word))
      ⟨pc, below, slots, temps, depth, callers⟩ none
      ⟨pc, below, slots, temps ++ [w], depth, callers⟩ := by
  intro s hs
  have hlt : i < slots.length := (List.getElem?_eq_some_iff.mp hw).1
  have hindex : localIndex slot address s = .ok (s.frame.base + i) s := by
    simp only [localIndex_apply, hi, hs.locals, if_pos hlt]
  have hcell : s.stack.getD (s.frame.base + i) 0 = w := by
    have hbase : s.frame.base = below.length := hs.base
    have hget := congrArg (fun ws => ws[below.length + i]?) hs.live
    have hin : below.length + i < s.frame.top := by
      rw [hs.top]
      simp only [Config.live, List.length_append]
      omega
    rw [List.getElem?_take_of_lt hin, Array.getElem?_toList, Config.live, List.append_assoc,
      List.getElem?_append_right (Nat.le_add_right _ i), Nat.add_sub_cancel_left,
      List.getElem?_append_left hlt, hw] at hget
    rw [Array.getD_eq_getD_getElem?, hbase, hget]
    rfl
  rw [bind_ok hindex, get_bind, hcell]
  exact (push_does w).bind (does_pure none _) s hs

/-- Pops a word into a slot. -/
theorem store_does {slot : Word} {i : Nat} (hi : slot.toIndex? = some i) (hlt : i < slots.length) :
    Does (do
        let j ← localIndex slot address
        let v ← pop address
        modify fun s => { s with stack := s.stack.setIfInBounds j v }
        return none : Exec (Option Word))
      ⟨pc, below, slots, temps ++ [w], depth, callers⟩ none
      ⟨pc, below, slots.set i w, temps, depth, callers⟩ := by
  intro s hs
  have hindex : localIndex slot address s = .ok (s.frame.base + i) s := by
    simp only [localIndex_apply, hi, hs.locals, if_pos hlt]
  rw [bind_ok hindex]
  have hbase : s.frame.base = below.length := hs.base
  rcases pop_does address s hs with ⟨s', hrun, hs'⟩ | ⟨n, s', hrun⟩
  · rw [bind_ok hrun]
    left
    refine ⟨_, rfl, ?_, hs'.base, ?_, ?_, hs'.pc, hs'.depth, hs'.callers⟩
    · have hlive := hs'.live
      simp only [Config.live] at hlive ⊢
      rw [Array.toList_setIfInBounds, List.take_set, hlive, hbase, List.append_assoc,
        List.append_assoc, List.set_append_right _ _ (by omega), Nat.add_sub_cancel_left,
        List.set_append_left _ _ hlt]
    · rw [hs'.locals, List.length_set]
    · rw [hs'.top]
      simp only [Config.live, List.length_append, List.length_set]
  · rw [bind_error hrun]
    exact Or.inr ⟨n, s', rfl⟩

theorem clear_succ (stack : Array Word) (start n : Nat) :
    clear stack start (start + (n + 1)) =
      (clear stack start (start + n)).setIfInBounds (start + n) 0 := by
  simp only [clear, Nat.add_sub_cancel_left, List.range'_concat, Nat.one_mul, List.foldl_append,
    List.foldl_cons, List.foldl_nil]

theorem take_clear (stack : Array Word) {start n : Nat} (h : start + n ≤ stack.size) :
    (clear stack start (start + n)).toList.take (start + n) =
      stack.toList.take start ++ List.replicate n 0 := by
  induction n with
  | zero => simp [clear]
  | succ n ih =>
    have hlt : start + n < (clear stack start (start + n)).toList.length := by
      rw [Array.length_toList, size_clear]
      omega
    rw [clear_succ, Array.toList_setIfInBounds, ← Nat.add_assoc, List.take_add_one,
      List.take_set_of_le (Nat.le_refl _), ih (by omega), List.getElem?_set_self hlt,
      List.replicate_succ', List.append_assoc]
    rfl

/-- A callee's arguments become its first slots; the other slots are zero. -/
theorem adjust_does {count : Word} {n : Nat} (hn : count.toIndex? = some n)
    (hle : temps.length ≤ n) :
    Does (adjust count address) ⟨pc, below, [], temps, depth, callers⟩ ()
      ⟨pc, below, temps ++ List.replicate (n - temps.length) 0, [], depth, callers⟩ := by
  intro s hs
  have htop : s.frame.top = below.length + temps.length := by
    rw [hs.top, Config.live, List.append_nil, List.length_append]
  have hbase : s.frame.base = below.length := hs.base
  simp only [adjust_apply, hn]
  by_cases hroom : s.frame.base + n ≤ s.stack.size
  · rw [if_pos hroom]
    left
    refine ⟨_, rfl, ?_, hs.base, ?_, ?_, hs.pc, hs.depth, hs.callers⟩
    · have hlive := hs.live
      have hsum : s.frame.base + n = s.frame.top + (n - temps.length) := by
        rw [htop, hbase]
        omega
      simp only [Config.live, List.append_nil] at hlive ⊢
      rw [hsum, take_clear s.stack (by omega), hlive, List.append_assoc]
    · simp only [List.length_append, List.length_replicate]
      omega
    · rw [hs.base]
      simp only [Config.live, List.length_append, List.length_replicate, List.append_nil]
      omega
  · rw [if_neg hroom]
    exact Or.inr ⟨_, _, rfl⟩

theorem frame_eq {s : State} {c : Config} (hs : s.Shows c) :
    s.frame = { base := c.below.length, locals := c.slots.length, top := c.live.length } := by
  rw [← hs.base, ← hs.locals, ← hs.top]

section Calls

variable {limit : Nat} {code : Array Word} {argc target : Word} {args : List Word} {entry : Nat}

def waiting (pc : Nat) (below slots temps : List Word) (n : Nat) : Caller where
  frame := { base := below.length, locals := slots.length,
             top := (below ++ slots ++ temps).length + n }
  pc
  argc := n

theorem enter_does (hn : argc.toIndex? = some args.length) (he : target.toIndex? = some entry)
    (hin : entry < code.size) (hd : depth < limit) :
    Does (enter limit code argc target address)
      ⟨pc, below, slots, temps ++ args, depth, callers⟩ ()
      ⟨entry, below ++ slots ++ temps, [], args, depth + 1,
        waiting pc below slots temps args.length :: callers⟩ := by
  intro s hs
  have hlive : Config.live ⟨pc, below, slots, temps ++ args, depth, callers⟩ =
      below ++ slots ++ temps ++ args := by
    rw [Config.live, ← List.append_assoc]
  have hroom : ¬ s.frame.top - s.frame.floor < args.length := by
    rw [Frame.floor, hs.top, hs.base, hs.locals, hlive]
    simp only [List.length_append]
    omega
  have hcode : ¬ code.size ≤ entry := by omega
  have hdepth : ¬ limit ≤ s.depth := by
    rw [hs.depth]
    exact Nat.not_le.mpr hd
  simp only [enter_apply, hn, he, if_neg hroom, if_neg hcode, if_neg hdepth]
  left
  refine ⟨_, rfl, ?_, ?_, rfl, ?_, rfl, ?_, ?_⟩
  · rw [hs.live, hlive, Config.live, List.append_nil]
  · rw [hs.top, hlive, List.length_append, Nat.add_sub_cancel]
  · rw [hs.top, hlive, Config.live, List.append_nil]
  · rw [hs.depth]
  · rw [frame_eq hs, hs.pc, hs.callers, hlive, List.length_append]
    rfl

theorem enter_raises (hn : argc.toIndex? = some args.length) (he : target.toIndex? = some entry)
    (hin : entry < code.size) (hd : limit ≤ depth) :
    Raises (enter limit code argc target address)
      ⟨pc, below, slots, temps ++ args, depth, callers⟩ (.callDepthExceeded limit) := by
  intro s hs
  have hroom : ¬ s.frame.top - s.frame.floor < args.length := by
    rw [Frame.floor, hs.top, hs.base, hs.locals, Config.live]
    simp only [List.length_append]
    omega
  have hcode : ¬ code.size ≤ entry := by omega
  have hdepth : limit ≤ s.depth := by rwa [hs.depth]
  simp only [enter_apply, hn, he, if_neg hroom, if_neg hcode, if_pos hdepth]
  exact Or.inl ⟨_, rfl⟩

/-- The caller finds its stack as it was, with the value in place of the arguments. -/
theorem leave_does {vs vs' : List Word} {n ret : Nat} :
    Does (leave w)
      ⟨pc, below ++ slots ++ temps, vs, vs', depth + 1,
        waiting ret below slots temps n :: callers⟩ none
      ⟨ret, below, slots, temps ++ [w], depth, callers⟩ := by
  intro s hs
  have hshows : State.Shows
      { s with
        frame := ⟨below.length, slots.length, (below ++ slots ++ temps).length + n - n⟩
        pc := ret
        depth := s.depth - 1
        callers }
      ⟨ret, below, slots, temps, depth, callers⟩ := by
    refine ⟨?_, rfl, rfl, ?_, rfl, ?_, rfl⟩
    · have hcut := congrArg (List.take (below ++ slots ++ temps).length) hs.live
      have hle : (below ++ slots ++ temps).length ≤ s.frame.top := by
        rw [hs.top]
        simp only [Config.live, List.length_append]
        omega
      rw [List.take_take, Nat.min_eq_left hle, Config.live,
        List.append_assoc (below ++ slots ++ temps), List.take_left] at hcut
      rw [Nat.add_sub_cancel]
      exact hcut
    · rw [Nat.add_sub_cancel]
      rfl
    · exact congrArg (· - 1) hs.depth
  rw [leave_apply, hs.callers]
  exact (push_does w).bind (does_pure none _) _ hshows

theorem leave_answers :
    Does (leave w) ⟨pc, below, slots, temps, depth, []⟩ (some w)
      ⟨pc, below, slots, temps, depth, []⟩ := by
  intro s hs
  rw [leave_apply, hs.callers]
  exact Or.inl ⟨s, rfl, hs⟩

end Calls

section Step

variable {limit : Nat} {code : Array Word} {c : Config} {op : Opcode} {answer : Option Word}
  {f : Fault}

theorem step_does (hw : code[pc]? = some op.word)
    (h : Does (perform limit code pc op) ⟨pc + 1, below, slots, temps, depth, callers⟩ answer c) :
    Does (step limit code) ⟨pc, below, slots, temps, depth, callers⟩ answer c := by
  intro s hs
  simp only [step_apply, hs.pc, hw, Opcode.ofWord?_word]
  exact h _ ⟨hs.live, hs.base, hs.locals, hs.top, rfl, hs.depth, hs.callers⟩

theorem step_raises (hw : code[pc]? = some op.word)
    (h : Raises (perform limit code pc op) ⟨pc + 1, below, slots, temps, depth, callers⟩ f) :
    Raises (step limit code) ⟨pc, below, slots, temps, depth, callers⟩ f := by
  intro s hs
  simp only [step_apply, hs.pc, hw, Opcode.ofWord?_word]
  exact h _ ⟨hs.live, hs.base, hs.locals, hs.top, rfl, hs.depth, hs.callers⟩

theorem step_raises_at_end :
    Raises (step limit code) ⟨code.size, below, slots, temps, depth, callers⟩
      (.fellOffEnd code.size) := by
  intro s hs
  have hnone : code[s.pc]? = none := by
    rw [hs.pc]
    exact Array.getElem?_eq_none (Nat.le_refl _)
  rw [step_apply, hnone, hs.pc]
  exact Or.inl ⟨s, rfl⟩

end Step

end Actions

end Exec

end Wordcode
