import Wordcode.Proofs.Sweep

/-!
Words and instructions, there and back. Main statement: sweeping the words of a list of instructions
gives the list back, and any sweep reads off words that encode what it found.
-/

namespace Wordcode

namespace Instruction

/-- Each instruction stands at the sum of the widths before it. -/
theorem getElem?_place (address k : Nat) (is : List Instruction) :
    (place address is)[k]? = (is[k]?).map fun i => (address + widthAll (is.take k), i) := by
  induction is generalizing address k with
  | nil => simp [place]
  | cons i is ih =>
    cases k with
    | zero => simp [place, widthAll]
    | succ k => simp [place, widthAll, ih, Nat.add_assoc]

end Instruction

section Reading

variable {code : Array Word} {address start stop : Nat} {i : Instruction}

/-- The words of an instruction that was put together from its opcode. -/
theorem holds_ofOpcode {op : Opcode} (hsize : address + op.immediates ≤ code.size) :
    (Instruction.ofOpcode op fun k => code[address + k]).opcode = op ∧
      Holds code address (Instruction.ofOpcode op fun k => code[address + k]).immediates := by
  cases op with
  | unary op =>
    rw [Instruction.ofOpcode_unary]
    exact ⟨rfl, .nil code address⟩
  | binary op =>
    rw [Instruction.ofOpcode_binary]
    exact ⟨rfl, .nil code address⟩
  | ret | pop => exact ⟨rfl, .nil code address⟩
  | load | store | int | jumpIfFalse | jump | stackAdjust =>
    exact ⟨rfl, .cons (Array.getElem?_eq_getElem hsize) (.nil code _)⟩
  | call =>
    exact ⟨rfl, .cons (Array.getElem?_eq_getElem (Nat.lt_of_succ_lt hsize))
      (.cons (Array.getElem?_eq_getElem hsize) (.nil code _))⟩

/-- An instruction is read off the words that it is written with. -/
theorem holds_of_decode (h : decode code address = .ok i) : Holds code address i.encode := by
  unfold decode at h
  split at h
  next => simp at h
  next word hword =>
    split at h
    next => simp at h
    next op hop =>
      split at h
      next hsize =>
        cases h
        obtain ⟨hopcode, himmediates⟩ := holds_ofOpcode hsize
        refine .cons ?_ himmediates
        rw [hword, hopcode, Opcode.word_of_ofWord? hop]
      next => simp at h

/-- What a sweep from `start` up to `stop` went over: instructions one behind the other that start
before `stop` and have the words of the code, up to `stop` or to where no instruction can be
read. -/
structure Reading (code : Array Word) (start stop : Nat) (is : List Instruction)
    (error : Option DecodeError) : Prop where
  before : ∀ a i, (a, i) ∈ Instruction.place start is → a < stop
  words : (code.extract start (start + Instruction.widthAll is)).toList =
    is.flatMap Instruction.encode
  finished : error = none → stop ≤ start + Instruction.widthAll is
  failed : ∀ e, error = some e → start + Instruction.widthAll is < stop ∧
    decode code (start + Instruction.widthAll is) = .error e

theorem toList_extract_of_holds {ws : List Word} {n : Nat} (h : Holds code address ws)
    (hn : ws.length = n) : (code.extract address (address + n)).toList = ws := by
  rw [Array.toList_extract, List.extract_eq_take_drop, Nat.add_sub_cancel_left, ← hn]
  exact (List.prefix_iff_eq_take.mp h).symm

theorem reading_nil (h : stop ≤ address) : Reading code address stop [] none where
  before := by simp [Instruction.place]
  words := by simp [Instruction.widthAll]
  finished _ := h
  failed := by simp

theorem reading_error {e : DecodeError} (hlt : address < stop)
    (h : decode code address = .error e) : Reading code address stop [] (some e) where
  before := by simp [Instruction.place]
  words := by simp [Instruction.widthAll]
  finished := by simp
  failed := by simpa [Instruction.widthAll, h] using hlt

/-- One more instruction in front. -/
theorem Reading.cons {is : List Instruction} {error : Option DecodeError} (hlt : address < stop)
    (h : decode code address = .ok i) (hrest : Reading code (address + i.width) stop is error) :
    Reading code address stop (i :: is) error := by
  obtain ⟨before, words, finished, failed⟩ := hrest
  have hwidth : address + i.width + Instruction.widthAll is =
      address + Instruction.widthAll (i :: is) := by
    rw [Instruction.widthAll, Nat.add_assoc]
  rw [hwidth] at words finished failed
  refine ⟨?_, ?_, finished, failed⟩
  · intro a j hmem
    rcases List.mem_cons.mp hmem with heq | hmem
    · cases heq
      exact hlt
    · exact before a j hmem
  · have hhead := toList_extract_of_holds (holds_of_decode h) i.length_encode
    rw [List.flatMap_cons, ← hhead, ← words, ← hwidth, ← Array.toList_append,
      Array.extract_append_extract]
    congr 2 <;> omega

theorem exists_reading (code : Array Word) (stop address : Nat) :
    ∃ is error, sweepFrom code stop address =
        (Instruction.place address is).map .ok ++ error.toList.map .error ∧
      Reading code address stop is error := by
  fun_induction sweepFrom code stop address with
  | case1 address hlt i hi ih =>
    obtain ⟨is, error, hsweep, hreading⟩ := ih
    refine ⟨i :: is, error, ?_, hreading.cons hlt hi⟩
    rw [hsweep]
    rfl
  | case2 address hlt e he => exact ⟨[], some e, rfl, reading_error hlt he⟩
  | case3 address hge => exact ⟨[], none, rfl, reading_nil (Nat.le_of_not_lt hge)⟩

theorem sweep_encoded (is : List Instruction) :
    let code := (is.flatMap Instruction.encode).toArray
    sweep code 0 code.size = (Instruction.place 0 is).map .ok := by
  refine sweep_of_holds ?_ ?_ (Nat.le_refl _)
  · exact List.prefix_refl _
  · rw [Nat.zero_add, List.size_toArray, Instruction.length_encodeAll]

/-- Instructions written one behind the other are read back, each at the sum of the widths before
it. Conversely any sweep of any code yields instructions one behind the other that are written with
the words it went over, and after them at most the one error that it stopped at. -/
theorem sweep_round_trip :
    (∀ is : List Instruction,
      let code := (is.flatMap Instruction.encode).toArray
      sweep code 0 code.size = (Instruction.place 0 is).map .ok ∧
        ∀ k : Nat, (sweep code 0 code.size)[k]? =
          (is[k]?).map fun i => .ok (Instruction.widthAll (is.take k), i)) ∧
    ∀ (code : Array Word) (start stop : Nat), ∃ is error,
      sweep code start stop =
          (Instruction.place start is).map .ok ++ error.toList.map .error ∧
        Reading code start (min stop code.size) is error := by
  refine ⟨fun is => ?_, fun code start stop => exists_reading code (min stop code.size) start⟩
  have hsweep := sweep_encoded is
  refine ⟨hsweep, fun k => ?_⟩
  rw [hsweep, List.getElem?_map, Instruction.getElem?_place, Option.map_map]
  simp [Function.comp_def]

end Reading

end Wordcode
