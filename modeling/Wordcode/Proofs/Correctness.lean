import Wordcode.Proofs.Emission
import Wordcode.Proofs.NormalForm
import Wordcode.Proofs.ProgramSimulation
import Wordcode.Sample

/-!
Compiled programs do what their trees mean. Main statement: a run ends the way the evaluation does,
or its stack overflows. Code is assumed to have fewer words than there are addresses.
-/

namespace Wordcode

theorem Machine.start_shows {m : Machine} {entry base : Nat} (h : base ≤ m.stack.size) :
    (m.start entry base).Shows ⟨entry, m.stack.toList.take base, [], [], 0, []⟩ := by
  have hlen : (m.stack.toList.take base).length = base := by
    rw [List.length_take, Array.length_toList, Nat.min_eq_left h]
  refine ⟨?_, hlen.symm, rfl, ?_, rfl, rfl, rfl⟩
  · rw [Config.live, List.append_nil, List.append_nil]
    rfl
  · rw [Config.live, List.append_nil, List.append_nil, hlen]
    rfl

namespace Limits

theorem problem?_eq_none_iff {l : Limits} : l.problem? = none ↔
    0 < l.stackCapacity ∧ 0 < l.maxCallDepth ∧ l.maxCallDepth ≤ deepestCall := by
  grind [problem?]

theorem validate_eq_ok_iff {l : Limits} : l.validate = .ok l ↔ l.problem? = none := by
  grind [validate]

/-- Limits that can be used are taken as they are. -/
theorem callDepth_of_problem? {l : Limits} (h : l.problem? = none) :
    l.callDepth = l.maxCallDepth := Nat.min_eq_left (problem?_eq_none_iff.mp h).2.2

end Limits

namespace Program

variable {p : Program} {im : Image} {limits : Limits}

/-- A run of an accepted program under usable limits is a run of its code on an empty stack. -/
theorem run_eq_runFrom (hc : p.compile = .ok im) (hv : limits.validate = .ok limits) (steps : Nat) :
    p.run limits steps =
      (Exec.runFrom limits.maxCallDepth im.code steps ((Machine.new limits).start 0 0)).map
        fun o => o.result.mapError .faulted := by
  have hproblem := Limits.validate_eq_ok_iff.mp hv
  have hnormal : p.normalize.compile = .ok im := by
    rw [compile, emission_normalize]
    exact hc
  have hentry : im.entry = 0 := (image_of_compile hc).2.2
  have hprepare : p.prepare limits = .ok ⟨im, limits⟩ := by
    simp only [prepare, hproblem, hnormal]
  simp only [run, hprepare, Prepared.run, Machine.execute, Nat.not_lt_zero, if_false, hentry]
  rw [Option.map_map, ← Limits.callDepth_of_problem? hproblem]
  rfl

/-- Running a program ends the way its tree is evaluated, if the stack suffices: with the value that
the tree comes to, or with the fault of its trap. And a run that ends without an overflow ends so
because the evaluation does. -/
theorem run_realizes_evaluation (p : Program) (im : Image) (limits : Limits)
    (hc : p.compile = .ok im) (hsize : im.code.size < addressSpace)
    (hv : limits.validate = .ok limits) :
    (∀ x, p.Evaluates limits.maxCallDepth x →
      ∃ steps r, p.run limits steps = some (r.mapError .faulted) ∧
        ((∃ n, r = .error (.stackOverflow n)) ∨ Realizes im.code.size x r)) ∧
    (∀ steps result, p.run limits steps = some result →
      ∃ r, result = r.mapError .faulted ∧
        ((∃ n, r = .error (.stackOverflow n)) ∨
          ∃ x, p.Evaluates limits.maxCallDepth x ∧ Realizes im.code.size x r)) := by
  obtain ⟨he, -⟩ := compile_eq_ok hc
  obtain ⟨hcode, -, -⟩ := image_of_compile hc
  have hs := @Machine.start_shows (Machine.new limits) 0 0 (Nat.zero_le _)
  constructor
  · intro x hx
    rcases Exec.ends_of_evaluates he hcode hsize hs hx with
      ⟨n, steps, s', hrun⟩ | ⟨r, hr, steps, s', hrun⟩
    · refine ⟨steps, .error (.stackOverflow n), ?_, Or.inl ⟨n, rfl⟩⟩
      rw [run_eq_runFrom hc hv, hrun]
      rfl
    · refine ⟨steps, r, ?_, Or.inr hr⟩
      rw [run_eq_runFrom hc hv, hrun]
      rfl
  · intro steps result h
    rw [run_eq_runFrom hc hv] at h
    obtain ⟨⟨r, s'⟩, hrun, rfl⟩ := Option.map_eq_some_iff.mp h
    exact ⟨r, rfl, Exec.realizes_of_ends he hcode hsize hs ⟨steps, s', hrun⟩⟩

set_option maxRecDepth 4000 in
theorem run_realizes_evaluation_gcd :
    ∃ im, Sample.greatestCommonDivisor.compile = .ok im ∧ im.code.size < addressSpace ∧
      (⟨16, 4⟩ : Limits).validate = .ok ⟨16, 4⟩ ∧
      Sample.greatestCommonDivisor.Evaluates 4 (.ok 21) ∧
      Sample.greatestCommonDivisor.run ⟨16, 4⟩ 51 = some (.ok 21) ∧
      (∃ steps r, Sample.greatestCommonDivisor.run ⟨16, 4⟩ steps = some (r.mapError .faulted) ∧
        ((∃ n, r = .error (.stackOverflow n)) ∨ Realizes im.code.size (.ok 21) r)) ∧
      ∃ x, Sample.greatestCommonDivisor.Evaluates 4 x ∧ Realizes im.code.size x (.ok 21) := by
  have hsize : Sample.greatestCommonDivisor.emission.patched.size < addressSpace := by decide
  have hx : Sample.greatestCommonDivisor.Evaluates 4 (.ok 21) := ⟨8, rfl⟩
  have hrun : Sample.greatestCommonDivisor.run ⟨16, 4⟩ 51 = some (.ok 21) := rfl
  have hall := run_realizes_evaluation Sample.greatestCommonDivisor _ ⟨16, 4⟩ rfl hsize rfl
  refine ⟨_, rfl, hsize, rfl, hx, hrun, hall.1 (.ok 21) hx, ?_⟩
  obtain ⟨r, hr, hends⟩ := hall.2 51 _ hrun
  cases r with
  | error f => cases hr
  | ok w =>
    cases hr
    obtain ⟨n, hn⟩ | hends := hends
    · cases hn
    · exact hends

/-- Wherever the code of a program runs, whatever the stack holds and however deep its calls nest,
it raises no fault of ill-formed code, and it falls off the end only at the end. -/
theorem execute_raises_no_consistency_fault (p : Program) (im : Image) (m m' : Machine)
    (steps base : Nat) (f : Fault) (hc : p.compile = .ok im) (hsize : im.code.size < addressSpace)
    (h : m.execute steps im.code im.entry base = some (.error f, m')) :
    (∃ n, f = .stackOverflow n) ∨ (∃ a, f = .divisionByZero a) ∨ (∃ w a, f = .invalidShift w a) ∨
      (∃ n, f = .callDepthExceeded n) ∨ f = .fellOffEnd im.code.size := by
  obtain ⟨he, -⟩ := compile_eq_ok hc
  obtain ⟨hcode, -, hentry⟩ := image_of_compile hc
  rw [Machine.execute, hentry] at h
  by_cases hbase : m.stack.size < base
  · rw [if_pos hbase] at h
    cases h
    exact Or.inl ⟨_, rfl⟩
  · rw [if_neg hbase] at h
    obtain ⟨⟨r, s'⟩, hrun, heq⟩ := Option.map_eq_some_iff.mp h
    cases heq
    have hs := @Machine.start_shows m 0 base (by omega)
    rcases Exec.realizes_of_ends he hcode hsize hs ⟨steps, s', hrun⟩ with ⟨n, hn⟩ | ⟨x, -, hr⟩
    · exact Or.inl ⟨n, Except.error.inj hn⟩
    · cases hr with
      | fault ht =>
        cases ht with
        | arithmetic e address =>
          cases e with
          | divisionByZero => exact Or.inr (Or.inl ⟨address, rfl⟩)
          | shiftOutOfRange amount => exact Or.inr (Or.inr (Or.inl ⟨amount, address, rfl⟩))
        | callDepthExceeded limit => exact Or.inr (Or.inr (Or.inr (Or.inl ⟨limit, rfl⟩)))
        | fellOffEnd => exact Or.inr (Or.inr (Or.inr (Or.inr rfl)))

theorem execute_divisionByZero_in_used_stack :
    ∃ (im : Image) (m' : Machine) (f : Fault),
      Sample.divisionByZero.compile = .ok im ∧ im.code.size < addressSpace ∧
      Machine.execute ⟨{}, #[9, 9, 9, 9, 9, 9], 0⟩ 20 im.code im.entry 2 = some (.error f, m') ∧
      ((∃ n, f = .stackOverflow n) ∨ (∃ a, f = .divisionByZero a) ∨
        (∃ w a, f = .invalidShift w a) ∨ (∃ n, f = .callDepthExceeded n) ∨
        f = .fellOffEnd im.code.size) := by
  have hsize : Sample.divisionByZero.emission.patched.size < addressSpace := by decide
  exact ⟨_, _, .divisionByZero 10, rfl, hsize, rfl,
    execute_raises_no_consistency_fault Sample.divisionByZero _ ⟨{}, #[9, 9, 9, 9, 9, 9], 0⟩ _ 20 2
      _ rfl hsize rfl⟩

end Program

end Wordcode
