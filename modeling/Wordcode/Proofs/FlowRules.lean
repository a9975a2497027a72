import Wordcode.Proofs.CheckedFlow

/-!
The rules that the check of control flow is there to enforce, in exact integers. Main statement: the
check accepts exactly the images that obey them, but for jumps whose destination is no word.
-/

namespace Wordcode

def Body.Spans (b : Body) (a : Nat) : Prop := b.start ≤ a ∧ a < b.stop

/-- The destination of a jump is a word unless it is too large. -/
theorem Instruction.exists_jumpTarget_iff {i : Instruction} {offset : Word} {a : Nat}
    (hoffset : i.offset? = some offset) (ha : a + 1 < addressSpace) :
    (∃ target, i.jumpTarget a = some target) ↔ (a : Int) + 1 + offset.toInt < addressSpace := by
  have hspace : (addressSpace : Int) = 9223372036854775808 := rfl
  simp only [jumpTarget_eq_some_iff hoffset ha]
  constructor
  · rintro ⟨target, htarget⟩
    have hlt := target.toInt_lt
    omega
  · intro hlt
    have hle := offset.le_toInt
    exact ⟨.ofInt (a + 1 + offset.toInt), Int64.toInt_ofInt_of_le (by omega) (by omega)⟩

namespace Image

def FirstAround (im : Image) (a : Nat) (b : Body) : Prop :=
  ∃ before after, im.bodies = before ++ b :: after ∧ b.Spans a ∧ ∀ b' ∈ before, ¬ b'.Spans a

/-- A jump at `a` leads to an instruction of the first body around it or to the end of the stream,
which has the instructions `is`. -/
def Stays (im : Image) (is : List Instruction) (a : Nat) (offset : Word) : Prop :=
  ∃ b, im.FirstAround a b ∧ ∃ n : Nat, (a : Int) + 1 + offset.toInt = n ∧
    (n = im.code.size ∨ ∃ j, (n, j) ∈ Instruction.place 0 is) ∧ (n = im.code.size ∨ b.Spans n)

/-- The rules for a stream of the instructions `is`. Of the jumps only those are asked about whose
destination is `seen`. -/
structure Obeys (im : Image) (is : List Instruction) (seen : Int → Prop) : Prop where
  words : im.code.toList = is.flatMap Instruction.encode
  /-- A call leads to the start of a body. -/
  calls : ∀ (a : Nat) (argc target : Word), (a, .call argc target) ∈ Instruction.place 0 is →
    ∃ b ∈ im.bodies, target.toInt = b.start
  jumps : ∀ (a : Nat) (i : Instruction) (offset : Word), (a, i) ∈ Instruction.place 0 is →
    i.offset? = some offset → seen (a + 1 + offset.toInt) → im.Stays is a offset

variable {im : Image} {a n : Nat} {b : Body} {is : List Instruction} {argc target : Word}

theorem enclosing?_eq_some_iff : im.enclosing? a = some b ↔ im.FirstAround a b := by
  have hnot : ∀ b' : Body, (!b'.contains a) = true ↔ ¬ b'.Spans a := by
    intro b'
    rw [Bool.not_eq_true', ← Bool.not_eq_true, Body.contains_iff, Body.Spans]
  simp only [enclosing?, List.find?_eq_some_iff_append, hnot, Body.contains_iff, FirstAround]
  constructor
  · rintro ⟨hb, before, after, hbodies, hbefore⟩
    exact ⟨before, after, hbodies, hb, hbefore⟩
  · rintro ⟨before, after, hbodies, hb, hbefore⟩
    exact ⟨hb, before, after, hbodies, hbefore⟩

theorem admits_call_iff :
    im.Admits (.call argc target) ↔ ∃ b ∈ im.bodies, target.toInt = b.start := by
  simp only [Admits, Word.toIndex?_eq_some_iff, bodyAt?, List.find?_isSome, beq_iff_eq]
  constructor
  · rintro ⟨entry, hentry, b, hb, rfl⟩
    exact ⟨b, hb, hentry⟩
  · rintro ⟨b, hb, hentry⟩
    exact ⟨b.start, hentry, b, hb, rfl⟩

theorem instructions_of_words (h : im.code.toList = is.flatMap Instruction.encode) :
    im.instructions = (Instruction.place 0 is).map .ok := by
  have hcode : im.code = (is.flatMap Instruction.encode).toArray := by rw [← h]
  rw [instructions, hcode]
  exact sweep_encoded is

/-- What the check finds out about a jump is what the rules ask of it. -/
theorem lands_iff_stays {i : Instruction} {offset : Word} (hoffset : i.offset? = some offset)
    (ha : a + 1 < addressSpace) (htarget : i.jumpTarget a = some target)
    (hplace : im.instructions = (Instruction.place 0 is).map .ok) :
    (∃ n b, target.toIndex? = some n ∧ im.enclosing? a = some b ∧
      (n = im.code.size ∨ b.contains n = true ∧ ∃ j, .ok (n, j) ∈ im.instructions)) ↔
    im.Stays is a offset := by
  rw [Instruction.jumpTarget_eq_some_iff hoffset ha] at htarget
  simp only [Word.toIndex?_eq_some_iff, htarget, enclosing?_eq_some_iff, Body.contains_iff, hplace,
    mem_map_ok, Stays, Body.Spans]
  grind

/-- The check decides the rules for jumps whose destination is a word, for arbitrary words and
bodies. -/
theorem checkControlFlow_decides_rules (im : Image) (hsize : im.code.size < addressSpace) :
    im.checkControlFlow = .ok () ↔ ∃ is, im.Obeys is (· < addressSpace) := by
  have hin : ∀ {a i}, .ok (a, i) ∈ im.instructions → a + 1 < addressSpace := by
    intro a i hi
    have hlt := lt_size_of_mem hi
    omega
  rw [checkControlFlow_eq_ok_iff]
  constructor
  · intro hc
    obtain ⟨is, hplace, hwords⟩ := exists_words hc.decodes
    have hmem : ∀ {a i}, (a, i) ∈ Instruction.place 0 is → .ok (a, i) ∈ im.instructions := by
      simp [hplace]
    refine ⟨is, hwords, ?_, ?_⟩
    · intro a argc target hi
      exact admits_call_iff.mp (hc.calls a _ (hmem hi))
    · intro a i offset hi hoffset hseen
      have ha := hin (hmem hi)
      obtain ⟨target, htarget⟩ := (Instruction.exists_jumpTarget_iff hoffset ha).mpr hseen
      exact (lands_iff_stays hoffset ha htarget hplace).mp (hc.jumps a i target (hmem hi) htarget)
  · rintro ⟨is, hwords, hcalls, hjumps⟩
    have hplace := instructions_of_words hwords
    refine ⟨by simp [hplace], ?_, ?_⟩
    · intro a i hi
      rw [hplace, mem_map_ok] at hi
      cases i with
      | call argc target => exact admits_call_iff.mpr (hcalls a argc target hi)
      | _ => trivial
    · intro a i target hi htarget
      have ha := hin hi
      obtain ⟨offset, hoffset⟩ := Instruction.offset?_of_jumpTarget htarget
      have hseen := (Instruction.exists_jumpTarget_iff hoffset ha).mp ⟨target, htarget⟩
      refine (lands_iff_stays hoffset ha htarget hplace).mpr ?_
      rw [hplace, mem_map_ok] at hi
      exact hjumps a i offset hi hoffset hseen

theorem checkControlFlow_decides_rules_skipping :
    Sample.skipping.code.size < addressSpace ∧ Sample.skipping.checkControlFlow = .ok () ∧
      ∃ is, Sample.skipping.Obeys is (· < addressSpace) := by
  have hsize : Sample.skipping.code.size < addressSpace := by decide
  have hcheck : Sample.skipping.checkControlFlow = .ok () := by decide +kernel
  exact ⟨hsize, hcheck, (checkControlFlow_decides_rules Sample.skipping hsize).mp hcheck⟩

end Image

def Sample.overshooting : Image where
  code := #[Opcode.jump.word, Int64.maxValue]
  bodies := [⟨"main", 0, 2, 0, []⟩]

/-- The check passes a jump whose destination is one more than the largest word. It leads out of the
stream, and a machine that follows it faults. -/
theorem Image.checkControlFlow_passes_overshooting :
    Sample.overshooting.checkControlFlow = .ok () ∧
      (¬ ∃ is, Sample.overshooting.Obeys is fun _ => True) ∧
      ∃ m', (Machine.new {}).execute 1 Sample.overshooting.code 0 0 =
        some (.error (.invalidJumpTarget Int64.maxValue 0), m') := by
  refine ⟨by decide +kernel, ?_, _, rfl⟩
  rintro ⟨is, hwords, -, hjumps⟩
  have hplace := instructions_of_words hwords
  have hswept : .ok (0, .jump Int64.maxValue) ∈ Sample.overshooting.instructions := by
    decide +kernel
  rw [hplace, mem_map_ok] at hswept
  obtain ⟨b, -, n, hn, hboundary, -⟩ := hjumps 0 _ _ hswept rfl trivial
  have hoffset : Int64.maxValue.toInt = 9223372036854775807 := by decide
  have hsize : Sample.overshooting.code.size = 2 := rfl
  obtain hend | ⟨j, hj⟩ := hboundary
  · omega
  · have hlt : n < 2 := Image.lt_size_of_mem (hplace ▸ mem_map_ok.mpr hj)
    omega

end Wordcode
