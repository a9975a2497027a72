import Wordcode.Proofs.Containment
import Wordcode.Proofs.FaultCauses
import Wordcode.Proofs.RoundTrip

/-!
What the check of control flow is worth at run time. Main statement: in an image that passes it,
every run stays on the instructions of the sweep, in all of its invocations.
-/

namespace Wordcode

namespace Image

def IsBoundary (im : Image) (n : Nat) : Prop :=
  n = im.code.size ∨ ∃ i, .ok (n, i) ∈ im.instructions

/-- What the check does not look at: bodies begin at instructions, and the destination of every jump
is a word. -/
structure Anchored (im : Image) : Prop where
  starts : ∀ b ∈ im.bodies, ∃ i, .ok (b.start, i) ∈ im.instructions
  jumps : ∀ a i offset, .ok (a, i) ∈ im.instructions → i.offset? = some offset →
    ∃ target, i.jumpTarget a = some target

variable {im : Image} {a n : Nat} {i : Instruction}

/-- A stream that decodes is written with its instructions. -/
theorem exists_words (h : ∀ e, .error e ∉ im.instructions) :
    ∃ is, im.instructions = (Instruction.place 0 is).map .ok ∧
      im.code.toList = is.flatMap Instruction.encode := by
  obtain ⟨is, error, hsweep, hreading⟩ := exists_reading im.code im.code.size 0
  rw [instructions, sweep, Nat.min_self, hsweep] at h ⊢
  have hnone : error = none := by
    cases error with
    | none => rfl
    | some e => exact absurd (by simp) (h e)
  have hle := hreading.finished hnone
  refine ⟨is, by simp [hnone], ?_⟩
  rw [← hreading.words, Array.extract_eq_self_of_le hle]

/-- A stream that decodes is filled by its instructions. -/
theorem exists_place (h : ∀ e, .error e ∉ im.instructions) :
    ∃ is, im.instructions = (Instruction.place 0 is).map .ok ∧
      Instruction.widthAll is = im.code.size := by
  obtain ⟨is, hsweep, hwords⟩ := exists_words h
  refine ⟨is, hsweep, ?_⟩
  rw [← Instruction.length_encodeAll, ← hwords, Array.length_toList]

theorem lt_size_of_mem (h : .ok (a, i) ∈ im.instructions) : a < im.code.size := by
  have hholds := holds_of_decode (decode_of_mem_sweepFrom h)
  have hle := hholds.size_le (by simp [Instruction.encode])
  rw [i.length_encode] at hle
  have hpos := i.width_pos
  omega

namespace Controlled

variable (hc : im.Controlled)

include hc

theorem next (hi : .ok (a, i) ∈ im.instructions) : im.IsBoundary (a + i.width) := by
  obtain ⟨is, hsweep, hwidth⟩ := exists_place hc.decodes
  simp only [IsBoundary, hsweep, mem_map_ok] at hi ⊢
  obtain ⟨before, after, rfl, rfl⟩ := Instruction.mem_place.mp hi
  cases after with
  | nil =>
    left
    simpa [Instruction.widthAll] using hwidth
  | cons j after =>
    right
    refine ⟨j, Instruction.mem_place.mpr ⟨before ++ [i], after, by simp, ?_⟩⟩
    simp [Instruction.widthAll]

theorem jump {target : Word} (hi : .ok (a, i) ∈ im.instructions)
    (htarget : i.jumpTarget a = some target) :
    ∃ n, target.toIndex? = some n ∧ im.IsBoundary n := by
  obtain ⟨n, b, hn, -, hlands⟩ := hc.jumps a i target hi htarget
  exact ⟨n, hn, hlands.imp_right And.right⟩

theorem callee (ha : im.Anchored) {argc target : Word}
    (hi : .ok (a, .call argc target) ∈ im.instructions) :
    ∃ entry, target.toIndex? = some entry ∧ ∃ j, .ok (entry, j) ∈ im.instructions := by
  obtain ⟨entry, hentry, hbody⟩ := hc.calls a _ hi
  obtain ⟨b, hb⟩ := Option.isSome_iff_exists.mp hbody
  have hstart : b.start = entry := by simpa using List.find?_some hb
  refine ⟨entry, hentry, ?_⟩
  rw [← hstart]
  exact ha.starts b (List.mem_of_find?_eq_some hb)

end Controlled

end Image

def Fault.Strays : Fault → Prop
  | invalidOpcode _ _ | truncated _ | invalidJumpTarget _ _ => True
  | _ => False

def State.OnBoundaries (im : Image) (s : State) : Prop := ∀ n ∈ s.counters, im.IsBoundary n

namespace Exec

variable {im : Image} {limit : Nat} {code : Array Word} {s t : State} {f : Fault}

theorem Visits.cons {s' : State} (h : Visits limit code s' t)
    (move : step limit code s = .ok none s') : Visits limit code s t := by
  induction h with
  | here => exact .next .here move
  | next _ move' ih => exact .next ih move'

/-- A run that faults does so in a step from a state that it passes through. -/
theorem exists_visits_of_error {steps : Nat} {o : Outcome} (h : runFrom limit code steps s = some o)
    (hf : o.result = .error f) :
    ∃ t u, Visits limit code s t ∧ step limit code t = .error f u := by
  induction steps generalizing s with
  | zero => cases h
  | succ steps ih =>
    rw [runFrom, EStateM.run] at h
    cases hstep : step limit code s with
    | error f' u =>
      rw [hstep] at h
      cases h
      cases hf
      exact ⟨s, u, .here, hstep⟩
    | ok answer s' =>
      rw [hstep] at h
      cases answer with
      | some w =>
        cases h
        cases hf
      | none =>
        obtain ⟨t, u, hvisits, herror⟩ := ih h
        exact ⟨t, u, hvisits.cons hstep, herror⟩

section Checked

variable (hc : im.Controlled) (ha : im.Anchored) (hsize : im.code.size < addressSpace)

theorem mem_of_decode {i : Instruction} (hs : im.IsBoundary s.pc)
    (hi : decode im.code s.pc = .ok i) : .ok (s.pc, i) ∈ im.instructions := by
  obtain hend | ⟨j, hj⟩ := hs
  · simp [hend, decode] at hi
  · cases (decode_of_mem_sweepFrom hj).symm.trans hi
    exact hj

include hc ha hsize

theorem step_onBoundaries (hs : s.OnBoundaries im) (h : step limit im.code s = .ok none t) :
    t.OnBoundaries im := by
  obtain ⟨i, hdecode, hleads⟩ := step_leads hsize h
  obtain ⟨hpc, hrest⟩ := List.forall_mem_cons.mp hs
  have hi := mem_of_decode hpc hdecode
  unfold State.OnBoundaries
  generalize t.counters = cs at hleads
  cases hleads with
  | next falls => exact List.forall_mem_cons.mpr ⟨hc.next hi, hrest⟩
  | jump leads index =>
    obtain ⟨n, hn, hboundary⟩ := hc.jump hi leads
    rw [index] at hn
    cases hn
    exact List.forall_mem_cons.mpr ⟨hboundary, hrest⟩
  | call index =>
    obtain ⟨entry, hentry, hcallee⟩ := hc.callee ha hi
    rw [index] at hentry
    cases hentry
    exact List.forall_mem_cons.mpr ⟨Or.inr hcallee, List.forall_mem_cons.mpr ⟨hc.next hi, hrest⟩⟩
  | ret => exact hrest

theorem Visits.onBoundaries (h : Visits limit im.code s t) (hs : s.OnBoundaries im) :
    t.OnBoundaries im := by
  induction h with
  | here => exact hs
  | next _ move ih => exact step_onBoundaries hc ha hsize ih move

/-- At a boundary there is an instruction that leads to another one, or the end. -/
theorem step_not_strays (hs : im.IsBoundary s.pc) (h : step limit im.code s = .error f t) :
    ¬ f.Strays := by
  obtain ⟨i, hdecode, hraise⟩ | ⟨e, hdecode, hraise⟩ := step_eq_error hsize h
  · have hi := mem_of_decode hs hdecode
    cases hraise with
    | overflow | underflow | load | store | adjust | tooDeep => simp [Fault.Strays]
    | @arithmetic op x y e fails => cases e <;> simp [Fault.ofArithmetic, Fault.Strays]
    | noTarget jumps leads =>
      obtain ⟨target, htarget⟩ := ha.jumps _ _ _ hi jumps
      simp [leads] at htarget
    | farTarget leads far =>
      obtain ⟨n, hn, hboundary⟩ := hc.jump hi leads
      have hlt := far n hn
      obtain hend | ⟨j, hj⟩ := hboundary
      · omega
      · have := Image.lt_size_of_mem hj
        omega
    | farCallee far =>
      obtain ⟨entry, hentry, j, hj⟩ := hc.callee ha hi
      have hle := far entry hentry
      have := Image.lt_size_of_mem hj
      omega
  · obtain hend | ⟨j, hj⟩ := hs
    · obtain rfl : .outOfBounds s.pc = e := by simpa [hend, decode] using hdecode
      cases hraise
      simp [Fault.Strays]
    · simp [decode_of_mem_sweepFrom hj] at hdecode

end Checked

end Exec

/-- An image that passes the check keeps its runs on the instructions that the sweep of its stream
finds. Wherever a run starts among them, with whatever limits, stack and frame, each address from
which an invocation takes an instruction is one of theirs or the end of the stream, and the run
never ends for want of an instruction or in a jump that leads out. -/
theorem Image.checked_runs_stay_on_boundaries (im : Image) (hcheck : im.checkControlFlow = .ok ())
    (ha : im.Anchored) (hsize : im.code.size < addressSpace) (m : Machine) (entry base : Nat)
    (hentry : im.IsBoundary entry) :
    (∀ t, Exec.Visits m.limits.callDepth im.code (m.start entry base) t → im.IsBoundary t.pc) ∧
    ∀ steps f m', m.execute steps im.code entry base = some (.error f, m') →
      ∀ w a, f ≠ .invalidOpcode w a ∧ f ≠ .truncated a ∧ f ≠ .invalidJumpTarget w a := by
  have hc := checkControlFlow_eq_ok_iff.mp hcheck
  have hstart : (m.start entry base).OnBoundaries im := by
    simpa [State.OnBoundaries, State.counters, Machine.start] using hentry
  have hvisits : ∀ t, Exec.Visits m.limits.callDepth im.code (m.start entry base) t →
      im.IsBoundary t.pc := fun t ht =>
    ht.onBoundaries hc ha hsize hstart t.pc List.mem_cons_self
  refine ⟨hvisits, fun steps f m' hrun => ?_⟩
  have hstrays : ¬ f.Strays := by
    by_cases hbase : base ≤ m.stack.size
    · rw [Machine.execute_of_le hbase] at hrun
      obtain ⟨o, hrun, heq⟩ := Option.map_eq_some_iff.mp hrun
      obtain ⟨t, u, ht, hstep⟩ := Exec.exists_visits_of_error hrun (congrArg Prod.fst heq)
      exact Exec.step_not_strays hc ha hsize (hvisits t ht) hstep
    · rw [Machine.execute, if_pos (Nat.lt_of_not_le hbase)] at hrun
      cases hrun
      simp [Fault.Strays]
  intro w a
  refine ⟨?_, ?_, ?_⟩ <;> rintro rfl <;> exact hstrays trivial

/-- Code made by hand. The first body jumps over an instruction and calls the second, which jumps to
its own last instruction and finds too few operands there. -/
def Sample.skipping : Image where
  code := #[Opcode.int.word, 0, Opcode.jumpIfFalse.word, 3, Opcode.int.word, 7, Opcode.call.word, 0,
    10, Opcode.ret.word, Opcode.int.word, 5, Opcode.jump.word, 1, (Opcode.binary .add).word]
  bodies := [⟨"first", 0, 10, 0, []⟩, ⟨"second", 10, 15, 0, []⟩]

def Sample.skippingPlaced : List (Nat × Instruction) :=
  [(0, .int 0), (2, .jumpIfFalse 3), (4, .int 7), (6, .call 0 10), (9, .ret), (10, .int 5),
    (12, .jump 1), (14, .binary .add)]

theorem Sample.skipping_instructions :
    skipping.instructions = skippingPlaced.map .ok := by
  decide +kernel

theorem Sample.skipping_anchored : skipping.Anchored := by
  have hstarts : ∀ b ∈ skipping.bodies, ∃ x ∈ skippingPlaced, x.1 = b.start := by decide
  have hjumps : ∀ x ∈ skippingPlaced, x.2.offset?.isSome → (x.2.jumpTarget x.1).isSome := by decide
  refine ⟨?_, ?_⟩ <;> simp only [skipping_instructions, mem_map_ok]
  · intro b hb
    obtain ⟨⟨a, i⟩, hmem, rfl⟩ := hstarts b hb
    exact ⟨i, hmem⟩
  · intro a i offset hmem hoffset
    exact Option.isSome_iff_exists.mp (hjumps (a, i) hmem (by simp [hoffset]))

theorem Image.checked_runs_stay_on_boundaries_skipping :
    Sample.skipping.checkControlFlow = .ok () ∧ Sample.skipping.Anchored ∧
      Sample.skipping.code.size < addressSpace ∧ Sample.skipping.IsBoundary 0 ∧
      (∃ t, Exec.Visits 512 Sample.skipping.code (Machine.start ⟨{}, #[9, 9, 9], 0⟩ 0 1) t ∧
        t.callers.length = 1 ∧ t.pc = 14 ∧ Sample.skipping.IsBoundary t.pc) ∧
      ∃ f m', Machine.execute ⟨{}, #[9, 9, 9], 0⟩ 9 Sample.skipping.code 0 1 =
          some (.error f, m') ∧ f = .stackUnderflow 14 ∧
        ∀ w a, f ≠ .invalidOpcode w a ∧ f ≠ .truncated a ∧ f ≠ .invalidJumpTarget w a := by
  have hcheck : Sample.skipping.checkControlFlow = .ok () := by decide +kernel
  have hanchored := Sample.skipping_anchored
  have hsize : Sample.skipping.code.size < addressSpace := by decide
  have hentry : Sample.skipping.IsBoundary 0 :=
    Or.inr ⟨.int 0, by simp [Sample.skipping_instructions, Sample.skippingPlaced]⟩
  obtain ⟨hvisits, hfaults⟩ := checked_runs_stay_on_boundaries Sample.skipping hcheck hanchored
    hsize ⟨{}, #[9, 9, 9], 0⟩ 0 1 hentry
  have hinner : Exec.Visits 512 Sample.skipping.code (Machine.start ⟨{}, #[9, 9, 9], 0⟩ 0 1)
      ⟨#[9, 5, 9], 4096, ⟨1, 0, 2⟩, 14, 1, [⟨⟨1, 0, 1⟩, 9, 0⟩]⟩ :=
    .next (.next (.next (.next (.next .here rfl) rfl) rfl) rfl) rfl
  exact ⟨hcheck, hanchored, hsize, hentry, ⟨_, hinner, rfl, rfl, hvisits _ hinner⟩,
    _, _, rfl, rfl, hfaults 9 _ _ rfl⟩

end Wordcode
