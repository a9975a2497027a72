import Wordcode.Proofs.Frames

/-!
Invocations leave their callers alone. Main statement: a call that comes back leaves the caller as
it was, with the value in place of the arguments.
-/

namespace Wordcode

namespace Exec

variable {limit : Nat} {code : Array Word} {origin : Array Word} {bottom : Nat}
  {outer : List Caller} {s t t' : State}

inductive Within (limit : Nat) (code : Array Word) (s : State) : State → Prop where
  | here : Within limit code s s
  | next {t t' : State} (before : Within limit code s t) (move : step limit code t = .ok none t')
      (within : s.callers.length ≤ t'.callers.length) : Within limit code s t'

/-- How the invocation that runs in `s` ends, and the state after its last step. It returns the word
on top of its stack, to a caller or as the answer of the run. -/
inductive Finishes (limit : Nat) (code : Array Word) (s : State) :
    Except Fault Word → State → Prop where
  | answer {t t' : State} {w : Word} (before : Within limit code s t)
      (last : step limit code t = .ok (some w) t') : Finishes limit code s (.ok w) t'
  | fault {t t' : State} {f : Fault} (before : Within limit code s t)
      (last : step limit code t = .error f t') : Finishes limit code s (.error f) t'
  | back {t t' : State} (before : Within limit code s t) (last : step limit code t = .ok none t')
      (left : t'.callers.length < s.callers.length) :
      Finishes limit code s (.ok (t.stack.getD (t.frame.top - 1) 0)) t'

def resumed (s : State) (w : Word) (c : Caller) (callers : List Caller) : State :=
  { s with
    stack := s.stack.setIfInBounds (c.frame.top - c.argc) w
    frame := { c.frame with top := c.frame.top - c.argc + 1 }
    pc := c.pc
    depth := s.depth - 1
    callers }

/-- A value is the answer of the run, or is handed to the caller, or there is no room for it. -/
theorem leave_cases (w : Word) (s : State) :
    (s.callers = [] ∧ leave w s = .ok (some w) s) ∨
      (∃ c callers, s.callers = c :: callers ∧ c.frame.top - c.argc < s.stack.size ∧
        leave w s = .ok none (resumed s w c callers)) ∨
      ∃ f s', leave w s = .error f s' ∧ s'.stack = s.stack := by
  rw [leave_apply]
  cases hcallers : s.callers with
  | nil => exact Or.inl ⟨rfl, rfl⟩
  | cons c callers =>
    right
    dsimp only
    have hpush := push_apply { s with
      frame := { c.frame with top := c.frame.top - c.argc }
      pc := c.pc
      depth := s.depth - 1
      callers } w
    by_cases hroom : c.frame.top - c.argc < s.stack.size
    · rw [if_pos hroom] at hpush
      exact Or.inl ⟨c, callers, rfl, hroom, bind_ok hpush⟩
    · rw [if_neg hroom] at hpush
      exact Or.inr ⟨_, _, bind_error hpush, rfl⟩

theorem step_ret_cases (limit : Nat) (hop : opcodeAt code t.pc = some .ret) :
    (t.callers = [] ∧ ∃ w t', step limit code t = .ok (some w) t') ∨
      (∃ c callers, t.callers = c :: callers ∧ c.frame.top - c.argc < t.stack.size ∧
        step limit code t = .ok none
          (resumed t (t.stack.getD (t.frame.top - 1) 0) c callers)) ∨
      ∃ f t', step limit code t = .error f t' ∧ t'.stack = t.stack := by
  rw [step_ret limit hop]
  split
  next =>
    have hleave := leave_cases (t.stack.getD (t.frame.top - 1) 0)
      { t with pc := t.pc + 1, frame := { t.frame with top := t.frame.top - 1 } }
    exact hleave.imp_left fun ⟨hcallers, h⟩ => ⟨hcallers, _, _, h⟩
  next => exact Or.inr (Or.inr ⟨_, _, rfl, rfl⟩)

def Silent (x : Exec (Option Word)) : Prop := ∀ s answer t, x s = .ok answer t → answer = none

theorem silent_none : Silent (pure none) := by
  intro s answer t h
  cases h
  rfl

theorem silent_throw (f : Fault) : Silent (throw f) := by
  intro s answer t h
  cases h

theorem Silent.bind {α : Type} {x : Exec α} {k : α → Exec (Option Word)}
    (hk : ∀ a, Silent (k a)) : Silent (x >>= k) := by
  intro s answer t h
  obtain ⟨a, s', -, hrest⟩ := bind_eq_ok h
  exact hk a s' answer t hrest

theorem perform_silent (limit : Nat) (code : Array Word) (address : Nat) {op : Opcode}
    (hop : op ≠ .ret) : Silent (perform limit code address op) := by
  cases op with
  | unary op =>
    rw [perform_unary]
    exact .bind fun _ => .bind fun _ => silent_none
  | binary op =>
    rw [perform_binary]
    refine .bind fun b => .bind fun a => ?_
    cases op.apply a b with
    | ok w => exact .bind fun _ => silent_none
    | error e => exact silent_throw _
  | load => exact .bind fun _ => .bind fun _ => .bind fun _ => .bind fun _ => silent_none
  | store => exact .bind fun _ => .bind fun _ => .bind fun _ => .bind fun _ => silent_none
  | int => exact .bind fun _ => .bind fun _ => silent_none
  | jumpIfFalse =>
    refine .bind fun w => ?_
    split
    next => exact .bind fun _ => silent_none
    next => exact .bind fun _ => silent_none
  | jump => exact .bind fun _ => silent_none
  | stackAdjust => exact .bind fun _ => .bind fun _ => silent_none
  | call => exact .bind fun _ => .bind fun _ => .bind fun _ => silent_none
  | ret => exact absurd rfl hop
  | pop => exact .bind fun _ => silent_none

/-- Only the outermost invocation answers the run. -/
theorem step_answer {w : Word} (h : step limit code t = .ok (some w) t') : t.callers = [] := by
  cases hop : opcodeAt code t.pc with
  | none =>
    obtain ⟨f, pc, hstep⟩ := step_of_no_opcode limit hop
    rw [hstep] at h
    cases h
  | some op =>
    by_cases hret : op = .ret
    · subst hret
      rcases step_ret_cases limit hop with ⟨hnil, -⟩ | ⟨c, callers, -, -, hback⟩ | ⟨f, u, hfault, -⟩
      · exact hnil
      · rw [h] at hback
        cases hback
      · rw [h] at hfault
        cases hfault
    · rw [step_of_opcode limit hop] at h
      cases perform_silent limit code t.pc hret _ _ _ h

theorem immediate_eq_ok {address : Nat} {w : Word} (h : immediate code address s = .ok w t) :
    code[s.pc]? = some w ∧ t = { s with pc := s.pc + 1 } := by
  rw [immediate_apply] at h
  cases hw : code[s.pc]? with
  | none =>
    rw [hw] at h
    cases h
  | some v =>
    rw [hw] at h
    cases h
    exact ⟨rfl, rfl⟩

/-- An invocation that is entered has the arguments for its frame. -/
theorem enter_eq_ok {argc target : Word} {address : Nat}
    (h : enter limit code argc target address s = .ok () t) :
    ∃ n entry, argc.toIndex? = some n ∧ target.toIndex? = some entry ∧
      n ≤ s.frame.top - s.frame.floor ∧ s.depth < limit ∧
      t = { s with
        frame := { base := s.frame.top - n, locals := 0, top := s.frame.top }
        pc := entry
        depth := s.depth + 1
        callers := { frame := s.frame, pc := s.pc, argc := n } :: s.callers } := by
  rw [enter_apply] at h
  cases hn : argc.toIndex? with
  | none =>
    rw [hn] at h
    cases h
  | some n =>
    simp only [hn] at h
    split at h
    next => cases h
    next hargs =>
      cases he : target.toIndex? with
      | none =>
        rw [he] at h
        cases h
      | some entry =>
        simp only [he] at h
        split at h
        next => cases h
        next =>
          split at h
          next => cases h
          next hdepth =>
            cases h
            exact ⟨n, entry, rfl, rfl, Nat.le_of_not_lt hargs, Nat.lt_of_not_le hdepth, rfl⟩

/-- A call that is refused has not filled the stack. -/
theorem enter_eq_error {argc target : Word} {address : Nat} {f : Fault}
    (h : enter limit code argc target address s = .error f t) (n : Nat) :
    f ≠ .stackOverflow n := by
  rintro rfl
  rw [enter_apply] at h
  cases hn : argc.toIndex? with
  | none => simp [hn] at h
  | some m =>
    cases he : target.toIndex? with
    | none => grind
    | some entry => grind

/-- A call starts the callee on its arguments. -/
theorem step_call (hop : opcodeAt code s.pc = some .call) (h : step limit code s = .ok none t) :
    ∃ argc n entry, code[s.pc + 1]? = some argc ∧ argc.toIndex? = some n ∧
      n ≤ s.frame.top - s.frame.floor ∧
      t = { s with
        frame := { base := s.frame.top - n, locals := 0, top := s.frame.top }
        pc := entry
        depth := s.depth + 1
        callers := { frame := s.frame, pc := s.pc + 3, argc := n } :: s.callers } := by
  rw [step_of_opcode limit hop] at h
  obtain ⟨argc, s₁, hargc, h⟩ := bind_eq_ok h
  obtain ⟨target, s₂, htarget, h⟩ := bind_eq_ok h
  obtain ⟨_, s₃, henter, hpure⟩ := bind_eq_ok h
  obtain ⟨hword, rfl⟩ := immediate_eq_ok hargc
  obtain ⟨-, rfl⟩ := immediate_eq_ok htarget
  cases hpure
  obtain ⟨n, entry, hn, -, hargs, -, rfl⟩ := enter_eq_ok henter
  exact ⟨argc, n, entry, hword, hn, hargs, rfl⟩

/-- A step goes on inside the invocation that has `outer` as callers, or returns from it. -/
theorem step_confined_cases (limit : Nat) (code : Array Word)
    (ht : t.Confined origin bottom outer) :
    Leaves (State.Confined origin bottom outer) (step limit code t) ∨
      (∃ c callers, outer = c :: callers ∧ t.callers = outer ∧
        c.frame.top - c.argc < t.stack.size ∧
        step limit code t = .ok none
          (resumed t (t.stack.getD (t.frame.top - 1) 0) c callers)) ∨
      ∃ f t', step limit code t = .error f t' ∧ t'.stack = t.stack := by
  by_cases hret : opcodeAt code t.pc = some .ret ∧ t.callers = outer
  · obtain ⟨hop, hcallers⟩ := hret
    rcases step_ret_cases limit hop with ⟨hnil, -⟩ | ⟨c, callers, hc, hback⟩ | hfault
    · exact Or.inl (step_confined limit code ht fun _ _ => hcallers.symm.trans hnil)
    · exact Or.inr (Or.inl ⟨c, callers, hcallers.symm.trans hc, hcallers, hback⟩)
    · exact Or.inr (Or.inr hfault)
  · exact Or.inl (step_confined limit code ht fun hop hcallers => absurd ⟨hop, hcallers⟩ hret)

/-- An invocation that has not returned is confined to the cells from its own frame on. -/
theorem Within.confined (h : Within limit code s t) (hs : s.Confined origin bottom s.callers) :
    t.Confined origin bottom s.callers := by
  induction h with
  | here => exact hs
  | next _ move within ih =>
    rcases step_confined_cases limit code ih with hkept | ⟨c, callers, hc, -, -, hback⟩ |
      ⟨f, u, hfault, -⟩
    · rw [move] at hkept
      exact hkept
    · -- The caller would go on, with fewer callers than the invocation began with.
      rw [move] at hback
      cases hback
      rw [hc] at within
      exact absurd within (Nat.not_succ_le_self _)
    · rw [move] at hfault
      cases hfault

/-- The step that leaves an invocation is its return. -/
theorem Within.returns (h : Within limit code s t) (hs : s.Confined origin bottom s.callers)
    (hstep : step limit code t = .ok none t') (hleft : t'.callers.length < s.callers.length) :
    ∃ c callers, s.callers = c :: callers ∧ t.callers = s.callers ∧
      c.frame.top - c.argc < t.stack.size ∧
      t' = resumed t (t.stack.getD (t.frame.top - 1) 0) c callers := by
  rcases step_confined_cases limit code (h.confined hs) with hkept |
    ⟨c, callers, hc, hcallers, hroom, hback⟩ | ⟨f, u, hfault, -⟩
  · rw [hstep] at hkept
    exact absurd hleft (Nat.not_lt.mpr hkept.stacked.suffix.length_le)
  · rw [hstep] at hback
    cases hback
    exact ⟨c, callers, hc, hcallers, hroom, rfl⟩
  · rw [hstep] at hfault
    cases hfault

/-- However an invocation ends, the cells below its frame are as they were. -/
theorem Finishes.untouched {r : Except Fault Word} (h : Finishes limit code s r t)
    (hs : s.Confined origin bottom []) : Untouched s.frame.base s.stack t.stack := by
  cases h with
  | answer before last =>
    rcases step_confined_cases limit code (before.confined hs.self) with hkept |
      ⟨c, callers, -, -, -, hback⟩ | ⟨f, u, hfault, -⟩
    · rw [last] at hkept
      exact hkept.untouched
    · rw [last] at hback
      cases hback
    · rw [last] at hfault
      cases hfault
  | fault before last =>
    have ht := before.confined hs.self
    rcases step_confined_cases limit code ht with hkept | ⟨c, callers, -, -, -, hback⟩ |
      ⟨f, u, hfault, hstack⟩
    · rw [last] at hkept
      exact hkept.untouched
    · rw [last] at hback
      cases hback
    · rw [last] at hfault
      cases hfault
      rw [hstack]
      exact ht.untouched
  | back before last left =>
    obtain ⟨c, callers, hc, -, -, rfl⟩ := before.returns hs.self last left
    have hstacked := hs.stacked
    rw [hc] at hstacked
    obtain ⟨-, -, hbase, -⟩ := hstacked.inner (List.cons_ne_nil _ _)
    exact (before.confined hs.self).untouched.trans (.set _ _ (Nat.le_of_eq hbase))

structure CameBack (s : State) (n : Nat) (w : Word) (t : State) : Prop where
  args : n ≤ s.frame.top - s.frame.floor
  frame : t.frame = { s.frame with top := s.frame.top - n + 1 }
  pc : t.pc = s.pc + 3
  depth : t.depth = s.depth
  callers : t.callers = s.callers
  stack : Untouched (s.frame.top - n) s.stack t.stack
  result : t.stack[s.frame.top - n]? = some w

/-- The callee of a call that comes back has the arguments for its frame. -/
theorem Finishes.cameBack {s₁ : State} {w : Word} (hs : s.Confined origin bottom [])
    (hop : opcodeAt code s.pc = some .call) (hstep : step limit code s = .ok none s₁)
    (h : Finishes limit code s₁ (.ok w) t) :
    ∃ argc n, code[s.pc + 1]? = some argc ∧ argc.toIndex? = some n ∧ CameBack s n w t := by
  obtain ⟨argc, n, entry, hargc, hn, hargs, rfl⟩ := step_call hop hstep
  have hs₁ := step_keeps limit code s hs
  rw [hstep] at hs₁
  have hstack := h.untouched hs₁
  refine ⟨argc, n, hargc, hn, ?_⟩
  cases h with
  | answer before last =>
    have hsuffix := (before.confined hs₁.self).stacked.suffix
    rw [step_answer last] at hsuffix
    cases List.suffix_nil.mp hsuffix
  | back before last left =>
    obtain ⟨c, callers, hc, hcallers, hroom, rfl⟩ := before.returns hs₁.self last left
    cases hc
    refine ⟨hargs, rfl, rfl, ?_, rfl, hstack, ?_⟩
    · change _ - 1 = s.depth
      rw [(before.confined hs₁.self).depth, hcallers, hs.depth]
      rfl
    · exact Array.getElem?_setIfInBounds_self_of_lt hroom

end Exec

/-- Whatever the code does and whatever the stack holds, a run keeps the cells below its frame. So
does every invocation of it, while it runs and however it ends, and a call that comes back leaves
the caller as it was with the value in place of the arguments. -/
theorem Machine.invocations_keep_below (m : Machine) (code : Array Word) (entry base : Nat) :
    (∀ steps r m', m.execute steps code entry base = some (r, m') →
      Untouched base m.stack m'.stack) ∧
    ∀ s, base ≤ m.stack.size →
      Exec.Visits m.limits.callDepth code (m.start entry base) s →
        (∀ t, Exec.Within m.limits.callDepth code s t →
          Untouched s.frame.base s.stack t.stack) ∧
        (∀ r t, Exec.Finishes m.limits.callDepth code s r t →
          Untouched s.frame.base s.stack t.stack) ∧
        ∀ callee w t, Exec.opcodeAt code s.pc = some .call →
          Exec.step m.limits.callDepth code s = .ok none callee →
          Exec.Finishes m.limits.callDepth code callee (.ok w) t →
            ∃ argc n, code[s.pc + 1]? = some argc ∧ argc.toIndex? = some n ∧
              Exec.CameBack s n w t := by
  refine ⟨fun steps r m' h => (execute_untouched h).2, ?_⟩
  intro s hbase hvisits
  have hs := hvisits.keeps (Exec.step_keeps _ _) (m.start_confined entry hbase)
  refine ⟨?_, ?_, ?_⟩
  · intro t hwithin
    exact (hwithin.confined hs.self).untouched
  · intro r t hfinishes
    exact hfinishes.untouched hs
  · intro callee w t hop hstep hfinishes
    exact hfinishes.cameBack hs hop hstep

theorem Machine.invocations_keep_below_negation :
    ∃ s callee t,
      Exec.Visits 512 Sample.negatingCode (start ⟨{}, #[9, 9, 9, 9, 9, 9, 9, 9], 0⟩ 0 2) s ∧
      Exec.opcodeAt Sample.negatingCode s.pc = some .call ∧
      Exec.step 512 Sample.negatingCode s = .ok none callee ∧
      Exec.Finishes 512 Sample.negatingCode callee (.ok (-5)) t ∧
      ∃ argc n, Sample.negatingCode[s.pc + 1]? = some argc ∧ argc.toIndex? = some n ∧
        Exec.CameBack s n (-5) t := by
  have h₁ : Exec.Visits 512 Sample.negatingCode (start ⟨{}, #[9, 9, 9, 9, 9, 9, 9, 9], 0⟩ 0 2)
      ⟨#[9, 9, 7, 9, 9, 9, 9, 9], 4096, ⟨2, 0, 3⟩, 2, 0, []⟩ := .next .here rfl
  have h₂ : Exec.Visits 512 Sample.negatingCode (start ⟨{}, #[9, 9, 9, 9, 9, 9, 9, 9], 0⟩ 0 2)
      ⟨#[9, 9, 7, 5, 9, 9, 9, 9], 4096, ⟨2, 0, 4⟩, 4, 0, []⟩ := .next h₁ rfl
  have h₃ : Exec.Within 512 Sample.negatingCode
      ⟨#[9, 9, 7, 5, 9, 9, 9, 9], 4096, ⟨3, 0, 4⟩, 8, 1, [⟨⟨2, 0, 4⟩, 7, 1⟩]⟩
      ⟨#[9, 9, 7, 5, 0, 9, 9, 9], 4096, ⟨3, 2, 5⟩, 10, 1, [⟨⟨2, 0, 4⟩, 7, 1⟩]⟩ :=
    .next .here rfl (by decide)
  have h₄ : Exec.Within 512 Sample.negatingCode
      ⟨#[9, 9, 7, 5, 9, 9, 9, 9], 4096, ⟨3, 0, 4⟩, 8, 1, [⟨⟨2, 0, 4⟩, 7, 1⟩]⟩
      ⟨#[9, 9, 7, 5, 0, 5, 9, 9], 4096, ⟨3, 2, 6⟩, 12, 1, [⟨⟨2, 0, 4⟩, 7, 1⟩]⟩ :=
    .next h₃ rfl (by decide)
  have h₅ : Exec.Within 512 Sample.negatingCode
      ⟨#[9, 9, 7, 5, 9, 9, 9, 9], 4096, ⟨3, 0, 4⟩, 8, 1, [⟨⟨2, 0, 4⟩, 7, 1⟩]⟩
      ⟨#[9, 9, 7, 5, 0, -5, 9, 9], 4096, ⟨3, 2, 6⟩, 13, 1, [⟨⟨2, 0, 4⟩, 7, 1⟩]⟩ :=
    .next h₄ rfl (by decide)
  have h₆ : Exec.Finishes 512 Sample.negatingCode
      ⟨#[9, 9, 7, 5, 9, 9, 9, 9], 4096, ⟨3, 0, 4⟩, 8, 1, [⟨⟨2, 0, 4⟩, 7, 1⟩]⟩ (.ok (-5))
      ⟨#[9, 9, 7, -5, 0, -5, 9, 9], 4096, ⟨2, 0, 4⟩, 7, 0, []⟩ := .back h₅ rfl (by decide)
  have hall := (invocations_keep_below ⟨{}, #[9, 9, 9, 9, 9, 9, 9, 9], 0⟩ Sample.negatingCode 0 2).2
    _ (by decide) h₂
  exact ⟨_, _, _, h₂, rfl, rfl, h₆, hall.2.2 _ _ _ rfl rfl h₆⟩

end Wordcode
