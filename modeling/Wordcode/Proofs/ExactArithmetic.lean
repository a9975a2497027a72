import Mathlib.Data.Int.ModEq
import Wordcode.Proofs.Dispatch

/-!
What the operators mean on integers. Main statement: an operator yields exactly the word that its
meaning allows, and a step at its opcode does just that to the topmost temporaries.
-/

namespace Wordcode

namespace Word

variable {a b v w : Word} {z : Int}

/-- The two's complement representation of a word, as a number. -/
def pattern (w : Word) : Nat := (w.toInt % 2 ^ 64).toNat

/-- The bits of the result are those of the operands, put together one by one. -/
def Combines (f : Bool → Bool → Bool) (a b w : Word) : Prop :=
  ∀ i, w.pattern.testBit i = f (a.pattern.testBit i) (b.pattern.testBit i)

def Tells (p : Prop) (w : Word) : Prop := p ∧ w.toInt = 1 ∨ ¬p ∧ w.toInt = 0

theorem modEq_toNat (w : Word) : w.toInt ≡ w.toBitVec.toNat [ZMOD 2 ^ 64] := by
  rw [← Int64.toInt_toBitVec, BitVec.toInt_eq_toNat_bmod]
  exact Int.bmod_emod

theorem pattern_eq (w : Word) : w.pattern = w.toBitVec.toNat := by
  have hmod : w.toInt % 2 ^ 64 = w.toBitVec.toNat % 2 ^ 64 := w.modEq_toNat
  have hlt := w.toBitVec.isLt
  rw [pattern, hmod]
  omega

/-- Each residue class has at most one word. -/
theorem eq_of_modEq (h : v.toInt ≡ w.toInt [ZMOD 2 ^ 64]) : v = w := by
  have hv := v.le_toInt
  have hv' := v.toInt_lt
  have hw := w.le_toInt
  have hw' := w.toInt_lt
  rw [Int.ModEq] at h
  exact Int64.toInt_inj.mp (by omega)

theorem eq_iff_modEq (hv : v.toInt ≡ z [ZMOD 2 ^ 64]) : v = w ↔ w.toInt ≡ z [ZMOD 2 ^ 64] := by
  constructor
  · rintro rfl
    exact hv
  · intro hw
    exact eq_of_modEq (hv.trans hw.symm)

/-- A wrapped result is the word congruent to the exact one. -/
theorem eq_iff_wraps (hv : v.toInt = z.bmod (2 ^ 64)) : v = w ↔ w.toInt ≡ z [ZMOD 2 ^ 64] := by
  refine eq_iff_modEq ?_
  rw [hv]
  exact Int.bmod_emod

theorem eq_iff_toInt_eq (hv : v.toInt = z) : v = w ↔ w.toInt = z := by
  rw [← hv, eq_comm, Int64.toInt_inj]

theorem eq_iff_combines {f : Bool → Bool → Bool}
    (hv : ∀ i, v.toBitVec.getLsbD i = f (a.toBitVec.getLsbD i) (b.toBitVec.getLsbD i)) :
    v = w ↔ Combines f a b w := by
  simp only [Combines, pattern_eq, BitVec.testBit_toNat, ← hv]
  constructor
  · rintro rfl i
    rfl
  · intro h
    exact Int64.toBitVec_inj.mp (BitVec.eq_of_getLsbD_eq fun i _ => (h i).symm)

theorem ofBool_eq_iff {c : Bool} {p : Prop} (h : c = true ↔ p) : ofBool c = w ↔ Tells p w := by
  have hv : (ofBool c).toInt = if c then 1 else 0 := by cases c <;> rfl
  rw [eq_iff_toInt_eq hv, Tells, ← h]
  cases c <;> simp

theorem toInt_not (a : Word) : (~~~a).toInt = -a.toInt - 1 := by
  have hle := a.le_toInt
  have hlt := a.toInt_lt
  rw [Int64.toInt_not]
  exact Int.bmod_eq_of_le (by omega) (by omega)

/-- Shift amounts are taken modulo 64, which leaves a bit position as it is. -/
theorem toNat_smod (hb : 0 ≤ b.toInt ∧ b.toInt < 64) :
    (b.toBitVec.smod 64).toNat = b.toInt.toNat := by
  have hint : (b.toBitVec.smod 64).toInt = b.toInt := by
    rw [BitVec.toInt_smod, Int64.toInt_toBitVec]
    have h64 : (64 : BitVec 64).toInt = 64 := by decide
    rw [h64, Int.fmod_eq_emod_of_nonneg _ (by decide)]
    omega
  rw [BitVec.toInt_eq_toNat_cond] at hint
  have hlt := (b.toBitVec.smod 64).isLt
  split at hint <;> omega

theorem shiftLeft_modEq (a : Word) (hb : 0 ≤ b.toInt ∧ b.toInt < 64) :
    (a <<< b).toInt ≡ a.toInt * 2 ^ b.toInt.toNat [ZMOD 2 ^ 64] := by
  have hnat : (a <<< b).toBitVec.toNat = a.toBitVec.toNat * 2 ^ b.toInt.toNat % 2 ^ 64 := by
    rw [Int64.toBitVec_shiftLeft, BitVec.shiftLeft_eq', BitVec.toNat_shiftLeft, toNat_smod hb,
      Nat.shiftLeft_eq]
  refine (modEq_toNat _).trans ?_
  rw [hnat]
  push_cast
  exact (Int.mod_modEq _ _).trans (a.modEq_toNat.symm.mul_right _)

theorem toInt_shiftRight (a : Word) (hb : 0 ≤ b.toInt ∧ b.toInt < 64) :
    (a >>> b).toInt = a.toInt.fdiv (2 ^ b.toInt.toNat) := by
  rw [← Int64.toInt_toBitVec, Int64.toBitVec_shiftRight, BitVec.toInt_sshiftRight',
    Int64.toInt_toBitVec, toNat_smod hb, Int.shiftRight_eq_div_pow,
    Int.fdiv_eq_ediv_of_nonneg _ (Int.le_of_lt (Int.pow_pos (by decide)))]
  push_cast
  rfl

end Word

def UnaryOperator.Yields (a : Word) : UnaryOperator → Word → Prop
  | plus, w => w.toInt = a.toInt
  | minus, w => w.toInt ≡ -a.toInt [ZMOD 2 ^ 64]
  | not, w => w.Tells (a.toInt = 0)
  | bitNot, w => w.toInt = -a.toInt - 1

theorem UnaryOperator.apply_eq_iff (op : UnaryOperator) (a w : Word) :
    op.apply a = w ↔ op.Yields a w := by
  cases op with
  | plus => exact Word.eq_iff_toInt_eq rfl
  | minus => exact Word.eq_iff_wraps (Int64.toInt_neg a)
  | not => exact Word.ofBool_eq_iff (by rw [beq_iff_eq, ← Int64.toInt_inj, Int64.toInt_zero])
  | bitNot => exact Word.eq_iff_toInt_eq a.toInt_not

namespace BinaryOperator

variable {a b q r w : Word}

inductive Refuses (b : Word) : BinaryOperator → ArithmeticError → Prop where
  | div (zero : b.toInt = 0) : Refuses b .div .divisionByZero
  | mod (zero : b.toInt = 0) : Refuses b .mod .divisionByZero
  | shiftLeft (range : ¬(0 ≤ b.toInt ∧ b.toInt < 64)) : Refuses b .shiftLeft (.shiftOutOfRange b)
  | shiftRight (range : ¬(0 ≤ b.toInt ∧ b.toInt < 64)) :
      Refuses b .shiftRight (.shiftOutOfRange b)

def Yields (a b : Word) : BinaryOperator → Word → Prop
  | add, w => w.toInt ≡ a.toInt + b.toInt [ZMOD 2 ^ 64]
  | sub, w => w.toInt ≡ a.toInt - b.toInt [ZMOD 2 ^ 64]
  | mul, w => w.toInt ≡ a.toInt * b.toInt [ZMOD 2 ^ 64]
  | div, w => w.toInt ≡ a.toInt.tdiv b.toInt [ZMOD 2 ^ 64]
  | mod, w => w.toInt = a.toInt.tmod b.toInt
  | bitAnd, w => Word.Combines and a b w
  | bitOr, w => Word.Combines or a b w
  | bitXor, w => Word.Combines xor a b w
  | shiftLeft, w => w.toInt ≡ a.toInt * 2 ^ b.toInt.toNat [ZMOD 2 ^ 64]
  | shiftRight, w => w.toInt = a.toInt.fdiv (2 ^ b.toInt.toNat)
  | equal, w => w.Tells (a.toInt = b.toInt)
  | notEqual, w => w.Tells (a.toInt ≠ b.toInt)
  | less, w => w.Tells (a.toInt < b.toInt)
  | lessEqual, w => w.Tells (a.toInt ≤ b.toInt)
  | greater, w => w.Tells (a.toInt > b.toInt)
  | greaterEqual, w => w.Tells (a.toInt ≥ b.toInt)
  | logicalAnd, w => w.Tells (a.toInt ≠ 0 ∧ b.toInt ≠ 0)
  | logicalOr, w => w.Tells (a.toInt ≠ 0 ∨ b.toInt ≠ 0)

theorem shift_eq_ok {f : Word → Word} {v : Word} (h : (shiftAmount b).map f = .ok v) :
    (0 ≤ b.toInt ∧ b.toInt < 64) ∧ f b = v := by
  rw [shiftAmount] at h
  split at h
  next hb =>
    cases h
    exact ⟨hb, rfl⟩
  next => cases h

theorem shift_eq_error_iff {f : Word → Word} {e : ArithmeticError} :
    (shiftAmount b).map f = .error e ↔
      ¬(0 ≤ b.toInt ∧ b.toInt < 64) ∧ .shiftOutOfRange b = e := by
  rw [shiftAmount]
  split
  next hb => simp [Except.map, hb]
  next hb => simp [Except.map, hb]

theorem apply_eq_error_iff (op : BinaryOperator) (a b : Word) (e : ArithmeticError) :
    op.apply a b = .error e ↔ op.Refuses b e := by
  constructor
  · intro h
    cases op with
    | div =>
      rw [apply] at h
      split at h <;> cases h
      next hb => exact .div (by rw [hb, Int64.toInt_zero])
    | mod =>
      rw [apply] at h
      split at h <;> cases h
      next hb => exact .mod (by rw [hb, Int64.toInt_zero])
    | shiftLeft =>
      obtain ⟨hb, rfl⟩ := shift_eq_error_iff.mp h
      exact .shiftLeft hb
    | shiftRight =>
      obtain ⟨hb, rfl⟩ := shift_eq_error_iff.mp h
      exact .shiftRight hb
    | _ => cases h
  · intro h
    cases h with
    | div zero => rw [apply, if_pos (Int64.toInt_inj.mp zero)]
    | mod zero => rw [apply, if_pos (Int64.toInt_inj.mp zero)]
    | shiftLeft range => exact shift_eq_error_iff.mpr ⟨range, rfl⟩
    | shiftRight range => exact shift_eq_error_iff.mpr ⟨range, rfl⟩

/-- A result is the one that the operator means. -/
theorem eq_iff_yields {op : BinaryOperator} {v : Word} (h : op.apply a b = .ok v) (w : Word) :
    v = w ↔ op.Yields a b w := by
  have hzero : ∀ c : Word, c ≠ 0 ↔ c.toInt ≠ 0 := fun c => by
    rw [Ne, ← Int64.toInt_inj, Int64.toInt_zero]
  cases op with
  | add =>
    cases h
    exact Word.eq_iff_wraps (Int64.toInt_add a b)
  | sub =>
    cases h
    exact Word.eq_iff_wraps (Int64.toInt_sub a b)
  | mul =>
    cases h
    exact Word.eq_iff_wraps (Int64.toInt_mul a b)
  | div =>
    rw [apply] at h
    split at h <;> cases h
    exact Word.eq_iff_wraps (Int64.toInt_div a b)
  | mod =>
    rw [apply] at h
    split at h <;> cases h
    exact Word.eq_iff_toInt_eq (Int64.toInt_mod a b)
  | bitAnd =>
    cases h
    exact Word.eq_iff_combines fun i => BitVec.getLsbD_and
  | bitOr =>
    cases h
    exact Word.eq_iff_combines fun i => BitVec.getLsbD_or
  | bitXor =>
    cases h
    exact Word.eq_iff_combines fun i => BitVec.getLsbD_xor
  | shiftLeft =>
    obtain ⟨hb, rfl⟩ := shift_eq_ok h
    exact Word.eq_iff_modEq (Word.shiftLeft_modEq a hb)
  | shiftRight =>
    obtain ⟨hb, rfl⟩ := shift_eq_ok h
    exact Word.eq_iff_toInt_eq (Word.toInt_shiftRight a hb)
  | equal =>
    cases h
    exact Word.ofBool_eq_iff (by rw [beq_iff_eq, Int64.toInt_inj])
  | notEqual =>
    cases h
    exact Word.ofBool_eq_iff (by rw [bne_iff_ne, Ne, Ne, Int64.toInt_inj])
  | less =>
    cases h
    exact Word.ofBool_eq_iff (decide_eq_true_iff.trans Int64.lt_iff_toInt_lt)
  | lessEqual =>
    cases h
    exact Word.ofBool_eq_iff (decide_eq_true_iff.trans Int64.le_iff_toInt_le)
  | greater =>
    cases h
    exact Word.ofBool_eq_iff (decide_eq_true_iff.trans Int64.lt_iff_toInt_lt)
  | greaterEqual =>
    cases h
    exact Word.ofBool_eq_iff (decide_eq_true_iff.trans Int64.le_iff_toInt_le)
  | logicalAnd =>
    cases h
    exact Word.ofBool_eq_iff (by rw [Bool.and_eq_true, bne_iff_ne, bne_iff_ne, hzero, hzero])
  | logicalOr =>
    cases h
    exact Word.ofBool_eq_iff (by rw [Bool.or_eq_true, bne_iff_ne, bne_iff_ne, hzero, hzero])

theorem apply_eq_ok_iff (op : BinaryOperator) (a b w : Word) :
    op.apply a b = .ok w ↔ (∀ e, ¬op.Refuses b e) ∧ op.Yields a b w := by
  simp only [← apply_eq_error_iff op a b]
  cases h : op.apply a b with
  | error e => simp
  | ok v => simp [eq_iff_yields h]

/-- Quotient and remainder make up the dividend, and the remainder has its sign. -/
theorem div_mod_spec (hq : div.apply a b = .ok q) (hr : mod.apply a b = .ok r) :
    q.toInt * b.toInt + r.toInt ≡ a.toInt [ZMOD 2 ^ 64] ∧ r.toInt.natAbs < b.toInt.natAbs ∧
      (0 ≤ a.toInt → 0 ≤ r.toInt) ∧ (a.toInt ≤ 0 → r.toInt ≤ 0) := by
  obtain ⟨haccept, hdiv⟩ := (apply_eq_ok_iff _ _ _ _).mp hq
  have hmod : r.toInt = a.toInt.tmod b.toInt := ((apply_eq_ok_iff _ _ _ _).mp hr).2
  have hb : b.toInt ≠ 0 := fun zero => haccept _ (.div zero)
  refine ⟨?_, ?_, ?_, ?_⟩
  · have hsum : a.toInt.tdiv b.toInt * b.toInt + r.toInt = a.toInt := by
      rw [hmod, Int.mul_comm, Int.mul_tdiv_add_tmod]
    have hcongr := (Int.ModEq.mul_right b.toInt hdiv).add_right r.toInt
    rwa [hsum] at hcongr
  · rw [hmod, Int.natAbs_tmod]
    exact Nat.mod_lt _ (by omega)
  · intro ha
    rw [hmod]
    exact Int.tmod_nonneg _ ha
  · intro ha
    have hneg := Int.tmod_nonneg b.toInt (Int.neg_nonneg_of_nonpos ha)
    rw [Int.neg_tmod] at hneg
    omega

end BinaryOperator

structure State.Offers (s : State) (ws : List Word) : Prop where
  floor : s.frame.floor + ws.length ≤ s.frame.top
  top : s.frame.top ≤ s.stack.size
  words : ∀ i w, ws[i]? = some w → s.stack.getD (s.frame.top - 1 - i) 0 = w

def State.dropped (s : State) (n : Nat) : State :=
  { s with frame := { s.frame with top := s.frame.top - n } }

def State.reduced (s : State) (n : Nat) (w : Word) : State :=
  { s with
    stack := s.stack.setIfInBounds (s.frame.top - n) w
    frame := { s.frame with top := s.frame.top - n + 1 }
    pc := s.pc + 1 }

namespace State.Offers

variable {s : State} {w : Word} {ws : List Word}

theorem pop_eq (h : s.Offers (w :: ws)) (address : Nat) :
    Exec.pop address s = .ok w (s.dropped 1) := by
  have hfloor := h.floor
  have hword := h.words 0 w rfl
  rw [List.length_cons] at hfloor
  rw [Exec.pop_apply, if_pos (by omega)]
  exact congrArg (fun v => EStateM.Result.ok v _) hword

theorem tail (h : s.Offers (w :: ws)) : (s.dropped 1).Offers ws where
  floor := by
    have hfloor := h.floor
    rw [List.length_cons] at hfloor
    show s.frame.floor + ws.length ≤ s.frame.top - 1
    omega
  top := Nat.le_trans (Nat.sub_le _ _) h.top
  words i v hv := by
    have hword := h.words (i + 1) v hv
    rwa [Nat.add_comm i 1, ← Nat.sub_sub] at hword

end State.Offers

namespace Exec

variable {limit : Nat} {code : Array Word} {s : State} {a b : Word}

/-- Where an operand was taken there is room for the result. -/
theorem push_none_eq (w : Word) (h : s.frame.top < s.stack.size) :
    (do push w; return none : Exec (Option Word)) s =
      .ok none { s with
        stack := s.stack.setIfInBounds s.frame.top w
        frame := { s.frame with top := s.frame.top + 1 } } := by
  have hpush := push_apply s w
  rw [if_pos h] at hpush
  exact bind_ok hpush

theorem step_unary {op : UnaryOperator} (hop : code[s.pc]? = some (Opcode.unary op).word)
    (hs : s.Offers [a]) : step limit code s = .ok none (s.reduced 1 (op.apply a)) := by
  have hfloor := hs.floor
  have htop := hs.top
  rw [List.length_singleton] at hfloor
  have hs' : { s with pc := s.pc + 1 }.Offers [a] := ⟨hs.floor, hs.top, hs.words⟩
  rw [step_of_opcode limit (opcodeAt_of_word hop), perform_unary]
  refine (bind_ok (hs'.pop_eq s.pc)).trans (push_none_eq (op.apply a) ?_)
  show s.frame.top - 1 < s.stack.size
  omega

theorem step_binary {op : BinaryOperator} (hop : code[s.pc]? = some (Opcode.binary op).word)
    (hs : s.Offers [b, a]) :
    step limit code s =
      match op.apply a b with
      | .ok w => .ok none (s.reduced 2 w)
      | .error e => .error (.ofArithmetic s.pc e) { s.dropped 2 with pc := s.pc + 1 } := by
  have hfloor := hs.floor
  have htop := hs.top
  rw [List.length_cons, List.length_singleton] at hfloor
  have hs' : { s with pc := s.pc + 1 }.Offers [b, a] := ⟨hs.floor, hs.top, hs.words⟩
  rw [step_of_opcode limit (opcodeAt_of_word hop), perform_binary]
  refine (bind_ok (hs'.pop_eq s.pc)).trans ((bind_ok (hs'.tail.pop_eq s.pc)).trans ?_)
  cases op.apply a b with
  | ok w =>
    refine push_none_eq w ?_
    show s.frame.top - 1 - 1 < s.stack.size
    omega
  | error e => rfl

end Exec

/-- The operators on `a` and `b`, as they are applied and as steps carry them out. -/
structure Word.Exact (a b : Word) : Prop where
  unary (op : UnaryOperator) (w : Word) : op.apply a = w ↔ op.Yields a w
  binary (op : BinaryOperator) (w : Word) :
    op.apply a b = .ok w ↔ (∀ e, ¬op.Refuses b e) ∧ op.Yields a b w
  refused (op : BinaryOperator) (e : ArithmeticError) : op.apply a b = .error e ↔ op.Refuses b e
  divided (q r : Word) : BinaryOperator.div.apply a b = .ok q →
    BinaryOperator.mod.apply a b = .ok r →
      q.toInt * b.toInt + r.toInt ≡ a.toInt [ZMOD 2 ^ 64] ∧ r.toInt.natAbs < b.toInt.natAbs ∧
        (0 ≤ a.toInt → 0 ≤ r.toInt) ∧ (a.toInt ≤ 0 → r.toInt ≤ 0)
  /-- The only quotient that is not a word. -/
  extreme : a = Int64.minValue → b = -1 →
    BinaryOperator.div.apply a b = .ok a ∧ BinaryOperator.mod.apply a b = .ok 0
  unaryStep (limit : Nat) (code : Array Word) (s : State) (op : UnaryOperator) :
    code[s.pc]? = some (Opcode.unary op).word → s.Offers [a] →
      Exec.step limit code s = .ok none (s.reduced 1 (op.apply a))
  binaryStep (limit : Nat) (code : Array Word) (s : State) (op : BinaryOperator) :
    code[s.pc]? = some (Opcode.binary op).word → s.Offers [b, a] →
      Exec.step limit code s =
        match op.apply a b with
        | .ok w => .ok none (s.reduced 2 w)
        | .error e => .error (.ofArithmetic s.pc e) { s.dropped 2 with pc := s.pc + 1 }

/-- Every operator computes what it means on exact integers, up to wrapping, and is refused exactly
for the operands that have no result. -/
theorem Word.operators_exact (a b : Word) : a.Exact b where
  unary op w := op.apply_eq_iff a w
  binary op w := op.apply_eq_ok_iff a b w
  refused op e := op.apply_eq_error_iff a b e
  divided _ _ := BinaryOperator.div_mod_spec
  extreme ha hb := by
    subst ha hb
    decide
  unaryStep _ _ _ _ := Exec.step_unary
  binaryStep _ _ _ _ := Exec.step_binary

/-- A step that divides the least word by -1. -/
theorem Word.operators_exact_extreme :
    ∃ s : State, s.Offers [-1, Int64.minValue] ∧
      Exec.step 0 #[(Opcode.binary .div).word] s = .ok none (s.reduced 2 Int64.minValue) := by
  have hexact := operators_exact Int64.minValue (-1)
  have hs : State.Offers ⟨#[Int64.minValue, -1], 2, ⟨0, 0, 2⟩, 0, 0, []⟩ [-1, Int64.minValue] := by
    refine ⟨by decide, by decide, fun i w hw => ?_⟩
    match i, hw with
    | 0, rfl => rfl
    | 1, rfl => rfl
  refine ⟨_, hs, ?_⟩
  rw [hexact.binaryStep 0 _ _ .div rfl hs, (hexact.extreme rfl rfl).1]

end Wordcode
