import Wordcode.Proofs.CallDepth
import Wordcode.Proofs.ExactArithmetic

/-!
Where faults point. Main statement: what a fault says of the code, its address included, can be read
off the code, without the run.
-/

namespace Wordcode

/-- The opcode takes a value off the stack, arguments of a call apart. -/
def Opcode.pops : Opcode → Bool
  | load | int | jump | stackAdjust | call => false
  | _ => true

/-- What a fault says of the code, in a run from `entry`. The two limits say nothing of it. -/
def Fault.Points (code : Array Word) (entry : Nat) : Fault → Prop
  | stackOverflow _ | callDepthExceeded _ => True
  | stackUnderflow a => ∃ op, Exec.opcodeAt code a = some op ∧ (op.pops = true ∨ op = .call)
  | divisionByZero a => decode code a = .ok (.binary .div) ∨ decode code a = .ok (.binary .mod)
  | invalidShift n a =>
    (decode code a = .ok (.binary .shiftLeft) ∨ decode code a = .ok (.binary .shiftRight)) ∧
      ¬(0 ≤ n.toInt ∧ n.toInt < 64)
  | invalidOpcode w a => code[a]? = some w ∧ Opcode.ofWord? w = none
  | truncated a => ∃ op, decode code a = .error (.truncated op a)
  | invalidSlot slot a => decode code a = .ok (.load slot) ∨ decode code a = .ok (.store slot)
  | invalidStackAdjust count a => decode code a = .ok (.stackAdjust count) ∧ count.toInt < 0
  | invalidJumpTarget t a =>
    (∃ i offset, decode code a = .ok i ∧ i.offset? = some offset ∧
      (i.jumpTarget a = some t ∧ ¬(0 ≤ t.toInt ∧ t.toInt ≤ code.size) ∨
        i.jumpTarget a = none ∧ t = Int64.maxValue)) ∨
    ∃ argc, decode code a = .ok (.call argc t) ∧ ¬(0 ≤ t.toInt ∧ t.toInt < code.size)
  | fellOffEnd a => code.size ≤ a ∧ (a = code.size ∨ a = entry)

theorem Word.toIndex?_eq_none_iff {w : Word} : w.toIndex? = none ↔ w.toInt < 0 := by
  simp [toIndex?]

theorem Word.toIndex?_of_nonneg {w : Word} (h : 0 ≤ w.toInt) :
    w.toIndex? = some w.toInt.toNat := if_pos h

section Sites

variable {code : Array Word} {entry limit a : Nat} {i : Instruction} {f : Fault}

theorem Instruction.pops_of_consumes (h : i.consumes = true) :
    i.opcode.pops = true ∨ i.opcode = .call := by
  cases i with
  | unary op | binary op => cases op <;> exact Or.inl rfl
  | _ => simp_all [consumes, opcode, Opcode.pops]

/-- An arithmetic fault names an operator that refuses its right operand. -/
theorem BinaryOperator.Refuses.points {op : BinaryOperator} {b : Word} {e : ArithmeticError}
    (h : op.Refuses b e) (hi : decode code a = .ok (.binary op)) :
    (Fault.ofArithmetic a e).Points code entry := by
  cases h with
  | div => exact Or.inl hi
  | mod => exact Or.inr hi
  | shiftLeft range => exact ⟨Or.inl hi, range⟩
  | shiftRight range => exact ⟨Or.inr hi, range⟩

theorem Instruction.CanRaise.points (h : i.CanRaise code.size limit a f)
    (hi : decode code a = .ok i) : f.Points code entry := by
  cases h with
  | overflow | tooDeep => trivial
  | underflow consumes =>
    exact ⟨i.opcode, Exec.opcodeAt_of_holds (holds_of_decode hi), pops_of_consumes consumes⟩
  | arithmetic fails => exact ((BinaryOperator.apply_eq_error_iff _ _ _ _).mp fails).points hi
  | load => exact Or.inl hi
  | store => exact Or.inr hi
  | adjust negative => exact ⟨hi, Word.toIndex?_eq_none_iff.mp negative⟩
  | noTarget jumps leads => exact Or.inl ⟨i, _, hi, jumps, Or.inr ⟨leads, rfl⟩⟩
  | @farTarget i target leads far =>
    obtain ⟨offset, hoffset⟩ := offset?_of_jumpTarget leads
    refine Or.inl ⟨i, offset, hi, hoffset, Or.inl ⟨leads, ?_⟩⟩
    rintro ⟨hnonneg, hle⟩
    have hlt := far _ (Word.toIndex?_of_nonneg hnonneg)
    omega
  | @farCallee argc target far =>
    refine Or.inr ⟨argc, hi, ?_⟩
    rintro ⟨hnonneg, hlt⟩
    have hle := far _ (Word.toIndex?_of_nonneg hnonneg)
    omega

/-- Why no instruction can be read at `a`. -/
theorem decode_eq_error {e : DecodeError} (h : decode code a = .error e) :
    e = .outOfBounds a ∧ code.size ≤ a ∨
      (∃ w, e = .invalidOpcode w a ∧ code[a]? = some w ∧ Opcode.ofWord? w = none) ∨
        ∃ op, e = .truncated op a ∧ Exec.opcodeAt code a = some op := by
  rw [decode] at h
  cases hword : code[a]? with
  | none =>
    rw [hword] at h
    cases h
    exact Or.inl ⟨rfl, Array.getElem?_eq_none_iff.mp hword⟩
  | some w =>
    rw [hword] at h
    dsimp only at h
    split at h
    next hop =>
      cases h
      exact Or.inr (Or.inl ⟨w, rfl, rfl, hop⟩)
    next op hop =>
      split at h <;> cases h
      refine Or.inr (Or.inr ⟨op, rfl, ?_⟩)
      rw [Exec.opcodeAt, hword, Option.bind_some, hop]

theorem DecodeError.CanRaise.points {e : DecodeError} (h : e.CanRaise f)
    (he : decode code a = .error e) (ha : a = entry ∨ a ≤ code.size) : f.Points code entry := by
  obtain ⟨rfl, hle⟩ | ⟨w, rfl, hw⟩ | ⟨op, rfl, hop⟩ := decode_eq_error he
  · cases h
    exact ⟨hle, by omega⟩
  · cases h
    exact hw
  · cases h with
    | truncated => exact ⟨op, he⟩
    | underflow => exact ⟨.jumpIfFalse, hop, Or.inl rfl⟩

end Sites

namespace Exec

variable {limit size : Nat} {code : Array Word} {s t : State} {f : Fault}

theorem step_points {entry : Nat} (hcode : code.size < addressSpace)
    (hs : s.pc = entry ∨ s.pc ≤ code.size) (h : step limit code s = .error f t) :
    f.Points code entry := by
  obtain ⟨i, hdecode, hraise⟩ | ⟨e, hdecode, hraise⟩ := step_eq_error hcode h
  · exact hraise.points hdecode
  · exact hraise.points hdecode hs

/-- A step leaves all counters in the code or at its end. -/
theorem Nests.le {cs : List Nat} (h : Nests size limit s cs)
    (hs : ∀ n ∈ s.callers.map Caller.pc, n ≤ size) : ∀ n ∈ cs, n ≤ size := by
  cases h with
  | same le => exact List.forall_mem_cons.mpr ⟨le, hs⟩
  | call room inside back =>
    exact List.forall_mem_cons.mpr ⟨Nat.le_of_lt inside, List.forall_mem_cons.mpr ⟨back, hs⟩⟩
  | ret waits =>
    rw [waits] at hs
    exact hs

/-- Only the first instruction of a run can lie behind the end of the code. -/
theorem Visits.counters_le (h : Visits limit code s t) (hs : s.callers = []) :
    t = s ∨ ∀ n ∈ t.counters, n ≤ code.size := by
  induction h with
  | here => exact Or.inl rfl
  | @next t t' _ move ih =>
    refine Or.inr ((nests_of_ok move).le ?_)
    obtain rfl | hle := ih
    · simp [hs]
    · exact (List.forall_mem_cons.mp hle).2

end Exec

def Sample.dividingCode : Array Word :=
  #[Opcode.call.word, 0, 4, Opcode.ret.word,
    Opcode.int.word, 1, Opcode.int.word, 0, (Opcode.binary .div).word, Opcode.ret.word]

namespace Machine

/-- However deep in calls a run faults, with whatever entry, frame and limits, its fault points at
the cause. -/
theorem faults_point_at_cause (m m' : Machine) (code : Array Word)
    (hcode : code.size < addressSpace) (steps entry base : Nat) (f : Fault)
    (h : m.execute steps code entry base = some (.error f, m')) : f.Points code entry := by
  by_cases hbase : base ≤ m.stack.size
  · rw [execute_of_le hbase] at h
    obtain ⟨o, hrun, ho⟩ := Option.map_eq_some_iff.mp h
    obtain ⟨t, u, hvisits, hstep⟩ := Exec.exists_visits_of_error hrun (congrArg Prod.fst ho)
    refine Exec.step_points hcode ?_ hstep
    obtain rfl | hle := hvisits.counters_le rfl
    · exact Or.inl rfl
    · exact Or.inr (List.forall_mem_cons.mp hle).1
  · rw [execute, if_pos (by omega)] at h
    cases h
    trivial

theorem faults_point_at_cause_dividing :
    Sample.dividingCode.size < addressSpace ∧
      ∃ m', (new ⟨4, 3⟩).execute 4 Sample.dividingCode 0 0 =
          some (.error (.divisionByZero 8), m') ∧
        (Fault.divisionByZero 8).Points Sample.dividingCode 0 := by
  have hsize : Sample.dividingCode.size < addressSpace := by decide
  exact ⟨hsize, _, rfl, faults_point_at_cause (new ⟨4, 3⟩) _ _ hsize 4 0 0 _ rfl⟩

end Machine

end Wordcode
