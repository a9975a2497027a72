import Wordcode.Proofs.Dispatch

/-!
Which faults an instruction can raise. Main statement: a step that faults does so because of the
instruction at the program counter, or because there is none.
-/

namespace Wordcode

namespace Instruction

def consumes : Instruction → Bool
  | unary _ | binary _ | store _ | jumpIfFalse _ | call _ _ | ret | pop => true
  | load _ | int _ | jump _ | stackAdjust _ => false

inductive CanRaise (size limit a : Nat) : Instruction → Fault → Prop where
  | overflow (i : Instruction) (capacity : Nat) : CanRaise size limit a i (.stackOverflow capacity)
  | underflow {i : Instruction} (consumes : i.consumes = true) :
      CanRaise size limit a i (.stackUnderflow a)
  | arithmetic {op : BinaryOperator} {x y : Word} {e : ArithmeticError}
      (fails : op.apply x y = .error e) : CanRaise size limit a (.binary op) (.ofArithmetic a e)
  | load (slot : Word) : CanRaise size limit a (.load slot) (.invalidSlot slot a)
  | store (slot : Word) : CanRaise size limit a (.store slot) (.invalidSlot slot a)
  | adjust {count : Word} (negative : count.toIndex? = none) :
      CanRaise size limit a (.stackAdjust count) (.invalidStackAdjust count a)
  | noTarget {i : Instruction} {offset : Word} (jumps : i.offset? = some offset)
      (leads : i.jumpTarget a = none) :
      CanRaise size limit a i (.invalidJumpTarget Int64.maxValue a)
  | farTarget {i : Instruction} {target : Word} (leads : i.jumpTarget a = some target)
      (far : ∀ n, target.toIndex? = some n → size < n) :
      CanRaise size limit a i (.invalidJumpTarget target a)
  | farCallee {argc target : Word} (far : ∀ n, target.toIndex? = some n → size ≤ n) :
      CanRaise size limit a (.call argc target) (.invalidJumpTarget target a)
  | tooDeep (argc target : Word) :
      CanRaise size limit a (.call argc target) (.callDepthExceeded limit)

end Instruction

namespace Exec

def Throws {α : Type} (P : Fault → Prop) (x : Exec α) : Prop := ∀ s f t, x s = .error f t → P f

section Actions

variable {α β : Type} {P : Fault → Prop} {x : Exec α} {k : α → Exec β} {address : Nat}

theorem throws_pure (a : α) : Throws P (pure a) := by
  intro s f t h
  cases h

theorem throws_throw {f : Fault} (hf : P f) : Throws P (throw f : Exec α) := by
  intro s f' t h
  cases h
  exact hf

theorem Throws.bind (hx : Throws P x) (hk : ∀ a, Throws P (k a)) : Throws P (x >>= k) := by
  intro s f t h
  cases hrun : x s with
  | ok a u =>
    rw [bind_ok hrun] at h
    exact hk a u f t h
  | error f' u =>
    rw [bind_error hrun] at h
    cases h
    exact hx s f t hrun

theorem pop_throws (hf : P (.stackUnderflow address)) : Throws P (pop address) := by
  intro s f t h
  rw [pop_apply] at h
  split at h <;> cases h
  exact hf

theorem push_throws (hf : ∀ n, P (.stackOverflow n)) (w : Word) : Throws P (push w) := by
  intro s f t h
  rw [push_apply] at h
  split at h <;> cases h
  exact hf _

theorem localIndex_throws {slot : Word} (hf : P (.invalidSlot slot address)) :
    Throws P (localIndex slot address) := by
  intro s f t h
  obtain ⟨i, -, -, hok⟩ | herror := localIndex_cases address slot s
  · simp [hok] at h
  · rw [herror] at h
    cases h
    exact hf

theorem leap_throws {code : Array Word} {target : Option Word}
    (hnone : target = none → P (.invalidJumpTarget Int64.maxValue address))
    (hfar : ∀ w, target = some w → (∀ n, w.toIndex? = some n → code.size < n) →
      P (.invalidJumpTarget w address)) : Throws P (leap code address target) := by
  intro s f t h
  cases target with
  | none =>
    cases h
    exact hnone rfl
  | some w =>
    have hraise := hfar w rfl
    dsimp only [leap] at h
    cases hw : w.toIndex? with
    | none =>
      rw [hw] at h
      cases h
      exact hraise (by simp [hw])
    | some i =>
      rw [hw] at h
      dsimp only at h
      split at h
      next => cases h
      next hlt =>
        cases h
        exact hraise (by simpa [hw] using hlt)

theorem adjust_throws {count : Word} (hover : ∀ n, P (.stackOverflow n))
    (hneg : count.toIndex? = none → P (.invalidStackAdjust count address)) :
    Throws P (adjust count address) := by
  intro s f t h
  rw [adjust_apply] at h
  cases hcount : count.toIndex? with
  | none =>
    rw [hcount] at h
    cases h
    exact hneg hcount
  | some locals =>
    rw [hcount] at h
    dsimp only at h
    split at h <;> cases h
    exact hover _

theorem enter_throws {limit : Nat} {code : Array Word} {argc target : Word}
    (hunder : P (.stackUnderflow address)) (hdeep : P (.callDepthExceeded limit))
    (hfar : (∀ n, target.toIndex? = some n → code.size ≤ n) →
      P (.invalidJumpTarget target address)) :
    Throws P (enter limit code argc target address) := by
  intro s f t h
  rw [enter_apply] at h
  cases hargc : argc.toIndex? with
  | none =>
    rw [hargc] at h
    cases h
    exact hunder
  | some n =>
    rw [hargc] at h
    dsimp only at h
    -- The checks in their order: the arguments, the callee, the depth.
    split at h
    next =>
      cases h
      exact hunder
    next =>
      cases htarget : target.toIndex? with
      | none =>
        rw [htarget] at h
        cases h
        exact hfar (by simp [htarget])
      | some entry =>
        rw [htarget] at h
        dsimp only at h
        split at h
        next hle =>
          cases h
          exact hfar (by simpa [htarget] using hle)
        next =>
          split at h <;> cases h
          exact hdeep

theorem leave_throws (hf : ∀ n, P (.stackOverflow n)) (w : Word) : Throws P (leave w) := by
  intro s f t h
  rw [leave_apply] at h
  split at h
  next => cases h
  next => exact (push_throws hf w).bind (fun _ => throws_pure none) _ f t h

end Actions

section Steps

variable {limit : Nat} {code : Array Word} {s t : State} {f : Fault}

/-- An instruction raises no other faults than its own. -/
theorem perform_throws (limit : Nat) (code : Array Word) (a : Nat) (i : Instruction) :
    Throws (i.CanRaise code.size limit a) (i.perform limit code a) := by
  have hover : ∀ n, i.CanRaise code.size limit a (.stackOverflow n) := .overflow i
  cases i with
  | unary op =>
    exact (pop_throws (.underflow rfl)).bind fun _ =>
      (push_throws hover _).bind fun _ => throws_pure none
  | binary op =>
    refine (pop_throws (.underflow rfl)).bind fun y => ?_
    refine (pop_throws (.underflow rfl)).bind fun x => ?_
    cases hw : op.apply x y with
    | ok w => exact (push_throws hover w).bind fun _ => throws_pure none
    | error e => exact throws_throw (.arithmetic hw)
  | load slot =>
    refine (localIndex_throws (.load slot)).bind fun j s f t h => ?_
    exact (push_throws hover _).bind (fun _ => throws_pure none) s f t h
  | store slot =>
    refine (localIndex_throws (.store slot)).bind fun j => ?_
    refine (pop_throws (.underflow rfl)).bind fun w s f t h => ?_
    cases h
  | int w => exact (push_throws hover w).bind fun _ => throws_pure none
  | jumpIfFalse offset =>
    refine (pop_throws (.underflow rfl)).bind fun w => ?_
    split
    next => exact (leap_throws (.noTarget rfl) fun _ => .farTarget).bind fun _ => throws_pure none
    next => exact throws_pure none
  | jump offset =>
    exact (leap_throws (.noTarget rfl) fun _ => .farTarget).bind fun _ => throws_pure none
  | stackAdjust count => exact (adjust_throws hover .adjust).bind fun _ => throws_pure none
  | call argc target =>
    exact (enter_throws (.underflow rfl) (.tooDeep argc target) .farCallee).bind fun _ =>
      throws_pure none
  | ret => exact (pop_throws (.underflow rfl)).bind fun w => leave_throws hover w
  | pop => exact (pop_throws (.underflow rfl)).bind fun _ => throws_pure none

/-- A step faults for what stands at the program counter. -/
theorem step_eq_error (hcode : code.size < addressSpace) (h : step limit code s = .error f t) :
    (∃ i, decode code s.pc = .ok i ∧ i.CanRaise code.size limit s.pc f) ∨
      ∃ e, decode code s.pc = .error e ∧ e.CanRaise f := by
  have hsame := step_same hcode limit s
  rw [h] at hsame
  obtain ⟨i, hi, hdecoded⟩ | ⟨e, f', he, hraise, hdecoded⟩ := stepDecoded_cases limit code s
  · rw [hdecoded] at hsame
    generalize hperform : i.perform limit code s.pc { s with pc := s.pc + i.width } = r at hsame
    cases hsame
    exact Or.inl ⟨i, hi, perform_throws limit code s.pc i _ _ _ hperform⟩
  · rw [hdecoded] at hsame
    cases hsame
    exact Or.inr ⟨e, he, hraise⟩

end Steps

end Exec

end Wordcode
