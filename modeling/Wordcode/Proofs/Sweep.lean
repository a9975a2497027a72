import Wordcode.Proofs.Instructions

/-!
Code as a list of instructions. Instructions that stand one after the other have addresses that
follow from their widths, and sweeping the code that holds their words finds each of them again.
-/

namespace Wordcode

namespace Instruction

def widthAll : List Instruction → Nat
  | [] => 0
  | i :: rest => i.width + widthAll rest

def place : Nat → List Instruction → List (Nat × Instruction)
  | _, [] => []
  | address, i :: rest => (address, i) :: place (address + i.width) rest

@[simp] theorem widthAll_append (is js : List Instruction) :
    widthAll (is ++ js) = widthAll is + widthAll js := by
  induction is with
  | nil => exact (Nat.zero_add _).symm
  | cons i is ih => rw [List.cons_append, widthAll, ih, widthAll, Nat.add_assoc]

theorem place_append (address : Nat) (is js : List Instruction) :
    place address (is ++ js) = place address is ++ place (address + widthAll is) js := by
  induction is generalizing address with
  | nil => rfl
  | cons i is ih =>
    rw [List.cons_append, place, ih, place, widthAll, Nat.add_assoc, List.cons_append]

theorem map_snd_place (s : Nat) (is : List Instruction) : (place s is).map Prod.snd = is := by
  induction is generalizing s with
  | nil => rfl
  | cons i is ih => rw [place, List.map_cons, ih]

theorem length_encodeAll (is : List Instruction) : (is.flatMap encode).length = widthAll is := by
  induction is with
  | nil => rfl
  | cons i is ih => rw [List.flatMap_cons, List.length_append, length_encode, ih, widthAll]

/-- An instruction stands behind those before it. -/
theorem mem_place {a address : Nat} {i : Instruction} {is : List Instruction} :
    (a, i) ∈ place address is ↔
      ∃ before after, is = before ++ i :: after ∧ a = address + widthAll before := by
  constructor
  · intro h
    induction is generalizing address with
    | nil => cases h
    | cons j is ih =>
      rcases List.mem_cons.mp h with heq | hmem
      · cases heq
        exact ⟨[], is, rfl, rfl⟩
      · obtain ⟨before, after, rfl, rfl⟩ := ih hmem
        exact ⟨j :: before, after, rfl, Nat.add_assoc _ _ _⟩
  · rintro ⟨before, after, rfl, rfl⟩
    rw [place_append]
    exact List.mem_append_right _ List.mem_cons_self

theorem place_le {a address : Nat} {i : Instruction} {is : List Instruction}
    (h : (a, i) ∈ place address is) : address ≤ a ∧ a + i.width ≤ address + widthAll is := by
  obtain ⟨before, after, rfl, rfl⟩ := mem_place.mp h
  rw [widthAll_append, widthAll]
  omega

/-- An instruction is the last one, or another one follows it. -/
theorem place_next {a address : Nat} {i : Instruction} {is : List Instruction}
    (h : (a, i) ∈ place address is) :
    is.getLast? = some i ∨ ∃ j, (a + i.width, j) ∈ place address is := by
  obtain ⟨before, after, rfl, rfl⟩ := mem_place.mp h
  cases after with
  | nil => exact Or.inl List.getLast?_concat
  | cons j after =>
    refine Or.inr ⟨j, mem_place.mpr ⟨before ++ [i], after, ?_, ?_⟩⟩
    · rw [List.append_assoc, List.singleton_append]
    · rw [widthAll_append, Nat.add_assoc]
      rfl

def offset? : Instruction → Option Word
  | jump offset | jumpIfFalse offset => some offset
  | _ => none

section Targets

variable {i : Instruction} {offset : Word} {address n : Nat}

/-- The destination of a jump is found from the address of its offset word. -/
theorem jumpTarget_eq_add? (hi : i.offset? = some offset) (h : address + 1 < addressSpace) :
    i.jumpTarget address = Word.add? (.ofNat (address + 1)) offset := by
  have hone : Word.add? (.ofNat address) 1 = some (.ofNat (address + 1)) :=
    Word.add?_eq_ofNat (by omega) h rfl
  cases i with
  | jump w | jumpIfFalse w =>
    cases hi
    rw [jumpTarget, hone]
    rfl
  | _ => cases hi

theorem jumpTarget_eq_ofNat (hi : i.offset? = some offset) (h : address + 1 < addressSpace)
    (hn : n < addressSpace) (heq : ((address + 1 : Nat) : Int) + offset.toInt = n) :
    i.jumpTarget address = some (.ofNat n) :=
  (jumpTarget_eq_add? hi h).trans (Word.add?_eq_ofNat h hn heq)

/-- A jump has a target exactly if its destination is a word. -/
theorem jumpTarget_eq_some_iff {target : Word} (hi : i.offset? = some offset)
    (h : address + 1 < addressSpace) :
    i.jumpTarget address = some target ↔ target.toInt = (address : Int) + 1 + offset.toInt := by
  rw [jumpTarget_eq_add? hi h, Word.add?_eq_some_iff, Word.toInt_ofNat h]
  omega

theorem offset?_of_jumpTarget {target : Word} (h : i.jumpTarget address = some target) :
    ∃ offset, i.offset? = some offset := by
  cases i with
  | jump w | jumpIfFalse w => exact ⟨w, rfl⟩
  | _ => cases h

end Targets

end Instruction

section Sweep

variable {code : Array Word} {address start stop : Nat}

theorem ofOpcode_of_holds {i : Instruction} (h : Holds code address i.immediates)
    (hsize : address + i.opcode.immediates ≤ code.size) :
    Instruction.ofOpcode i.opcode (fun k => code[address + k]) = i := by
  have hwords : (fun k : Fin i.opcode.immediates => code[address + k]) =
      fun k => i.immediates.get (k.cast i.length_immediates.symm) := by
    funext k
    exact h.getElem _ _
  rw [hwords, i.ofOpcode_immediates]

theorem decode_of_holds {i : Instruction} (h : Holds code address i.encode) :
    decode code address = .ok i := by
  have hsize := h.size_le (Nat.succ_pos _)
  rw [i.length_encode, Instruction.width, ← Nat.add_assoc] at hsize
  simp only [decode, h.head, Opcode.ofWord?_word, dif_pos hsize, ofOpcode_of_holds h.tail hsize]

theorem decode_of_mem_sweepFrom {a : Nat} {i : Instruction}
    (h : .ok (a, i) ∈ sweepFrom code stop address) : decode code a = .ok i := by
  fun_induction sweepFrom code stop address with
  | case1 address hlt j hj ih =>
    rcases List.mem_cons.mp h with heq | hmem
    · cases heq
      exact hj
    · exact ih hmem
  | case2 => simp at h
  | case3 => cases h

/-- A sweep goes over the instructions that the code holds and on behind them. -/
theorem sweepFrom_of_holds {is : List Instruction}
    (h : Holds code address (is.flatMap Instruction.encode))
    (hle : address + Instruction.widthAll is ≤ stop) :
    sweepFrom code stop address = (Instruction.place address is).map .ok
      ++ sweepFrom code stop (address + Instruction.widthAll is) := by
  induction is generalizing address with
  | nil => rfl
  | cons i is ih =>
    have hpos := i.width_pos
    rw [Instruction.widthAll, ← Nat.add_assoc] at hle ⊢
    rw [List.flatMap_cons] at h
    have hrest := ih (h.after i.length_encode) hle
    rw [sweepFrom, if_pos (by omega), decode_of_holds h.append_left]
    dsimp only
    rw [hrest]
    rfl

theorem sweepFrom_self (code : Array Word) (stop : Nat) : sweepFrom code stop stop = [] := by
  rw [sweepFrom, if_neg (Nat.lt_irrefl stop)]

/-- The sweep of a stretch finds the instructions that fill it. -/
theorem sweep_of_holds {is : List Instruction}
    (h : Holds code start (is.flatMap Instruction.encode))
    (hstop : start + Instruction.widthAll is = stop) (hle : stop ≤ code.size) :
    sweep code start stop = (Instruction.place start is).map .ok := by
  rw [sweep, Nat.min_eq_left hle, sweepFrom_of_holds h (Nat.le_of_eq hstop), hstop,
    sweepFrom_self, List.append_nil]

end Sweep

end Wordcode
