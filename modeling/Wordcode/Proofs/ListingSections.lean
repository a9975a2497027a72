import Mathlib.Data.List.Count
import Wordcode.Proofs.CheckedFlow
import Wordcode.Proofs.LosslessListing

/-!
The sections of a listing. Main statement: the listing of a program has one section for each body,
with each instruction once, and jumps only name labels of their own section.
-/

namespace Wordcode

section Lists

variable {α β : Type}

theorem mem_eraseRepsBy_loop [BEq α] [LawfulBEq α] {x a : α} {xs acc : List α} :
    x ∈ List.eraseRepsBy.loop (· == ·) a xs acc ↔ x = a ∨ x ∈ xs ∨ x ∈ acc := by
  induction xs generalizing a acc with
  | nil => simp [List.eraseRepsBy.loop, or_comm]
  | cons b xs ih =>
    rw [List.eraseRepsBy.loop]
    split <;> grind

theorem mem_eraseReps [BEq α] [LawfulBEq α] {x : α} {xs : List α} :
    x ∈ xs.eraseReps ↔ x ∈ xs := by
  cases xs with
  | nil => simp [List.eraseReps, List.eraseRepsBy]
  | cons a xs => simp [List.eraseReps, List.eraseRepsBy, mem_eraseRepsBy_loop]

theorem flatMap_ite (p : α → Bool) (f : α → β) (xs : List α) :
    (xs.flatMap fun x => if p x then [f x] else []) = (xs.filter p).map f := by
  induction xs with
  | nil => rfl
  | cons x xs ih => by_cases hx : p x = true <;> simp [hx, ih]

end Lists

theorem Word.text_of_toInt {w : Word} {n : Nat} (h : w.toInt = n) : w.text = toString n := by
  rw [text, h]
  rfl

theorem Instruction.pairwise_place (s : Nat) (is : List Instruction) :
    ((place s is).map Prod.fst).Pairwise (· < ·) := by
  induction is generalizing s with
  | nil => simp [place]
  | cons i is ih =>
    have hpos := i.width_pos
    rw [place, List.map_cons, List.pairwise_cons]
    refine ⟨?_, ih _⟩
    rintro _ hmem
    obtain ⟨⟨a, j⟩, hj, rfl⟩ := List.mem_map.mp hmem
    have hle := (place_le hj).1
    dsimp only
    omega

section Lines

variable {line : String} {a n : Nat}

def isLineAt (a : Nat) (line : String) : Bool :=
  (Nat.toDigits 10 a ++ [' ']).isPrefixOf (line.toList.dropWhile (· == ' '))

theorem isLineAt_lineText {op : Opcode} {operand : List Char}
    (h : line.toList = lineText n op operand) : isLineAt a line = (n == a) := by
  rw [isLineAt, h, lineText, dropWhile_of_stops (by simp) (stops_digits n), Bool.eq_iff_iff,
    List.isPrefixOf_iff_prefix, beq_iff_eq]
  constructor
  · rintro ⟨rest, hrest⟩
    rw [List.append_assoc] at hrest
    exact (toDigits_append_inj (stops_cons (by decide)) (stops_cons (by decide)) hrest).1.symm
  · rintro rfl
    exact ⟨_, List.append_assoc _ _ _⟩

theorem ofLine_of_isLineAt (h : isLineAt a line = true) :
    LineKind.ofLine line = .instruction := by
  obtain ⟨c, cs, hcs, hc⟩ := exists_toDigits a
  obtain ⟨rest, hrest⟩ := List.isPrefixOf_iff_prefix.mp h
  rw [hcs] at hrest
  simp [LineKind.ofLine, ← hrest, hc]

theorem toList_labelLine (a : Nat) : (labelLine a).toList = Nat.toDigits 10 a ++ [':'] := by
  simp [labelLine, toString]

theorem labelLine_inj (h : labelLine a = labelLine n) : a = n := by
  rw [← String.toList_inj, toList_labelLine, toList_labelLine] at h
  exact (toDigits_append_inj (stops_cons (by decide)) (stops_cons (by decide)) h).1

def isPlainChar (c : Char) : Bool := isBodyNameChar c || "/:,- ".toList.contains c

theorem isPlainChar_of_isNameChar {c : Char} (h : isNameChar c = true) : isPlainChar c = true := by
  simp [isPlainChar, isBodyNameChar, h]

theorem all_plain_of_all_name {cs : List Char} (h : cs.all isNameChar = true) :
    cs.all isPlainChar = true := by
  rw [List.all_eq_true] at h ⊢
  exact fun c hc => isPlainChar_of_isNameChar (h c hc)

theorem all_plain_digits (n : Nat) : (Nat.toDigits 10 n).all isPlainChar = true := by
  refine all_plain_of_all_name (List.all_eq_true.mpr fun c hc => ?_)
  exact isNameChar_of_digit (List.all_eq_true.mp (all_toDigits n) c hc)

theorem Word.all_plain_text (w : Word) : w.text.toList.all isPlainChar = true := by
  have hall := w.all_text
  rw [List.all_eq_true] at hall ⊢
  intro c hc
  obtain hname | hminus := (Bool.or_eq_true _ _).mp (hall c hc)
  · exact isPlainChar_of_isNameChar hname
  · rw [eq_of_beq hminus]
    decide

theorem Body.all_plain_name {b : Body} (h : isBodyName b.name = true) :
    b.name.toList.all isPlainChar = true := by
  have hall := all_of_isBodyName h
  grind [isPlainChar]

theorem Body.all_plain_header {b : Body} (h : isBodyName b.name = true) :
    b.header.toList.all isPlainChar = true := by
  have hname := all_plain_name h
  have hdigits := all_plain_digits b.arity
  have hslash : isPlainChar '/' = true := by decide
  have hcolon : isPlainChar ':' = true := by decide
  simp only [toList_header, List.all_append, List.all_cons, List.all_nil, hname, hdigits, hslash,
    hcolon, Bool.and_true]

theorem all_plain_labelLine (a : Nat) : (labelLine a).toList.all isPlainChar = true := by
  have hdigits := all_plain_digits a
  have hcolon : isPlainChar ':' = true := by decide
  simp only [toList_labelLine, List.all_append, List.all_cons, List.all_nil, hdigits, hcolon,
    Bool.and_true]

theorem all_plain_lineText (a : Nat) (op : Opcode) {operand : List Char}
    (h : operand.all isPlainChar = true) : (lineText a op operand).all isPlainChar = true := by
  have hblank : isPlainChar ' ' = true := by decide
  have hblanks : ∀ k, (List.replicate k ' ').all isPlainChar = true := by simp [hblank]
  have hcolumn : (operandColumn op operand).all isPlainChar = true := by
    unfold operandColumn
    split
    · rfl
    · rw [List.all_append, hblanks, h, Bool.and_true]
  have hmnemonic := all_plain_of_all_name op.all_mnemonic
  have hdigits := all_plain_digits a
  simp only [lineText, List.all_append, List.all_cons, hblanks, hdigits, hblank, hmnemonic, hcolumn,
    Bool.and_true]

theorem semicolon_notMem_slotLine {name : String} (h : isIdentifier name = true) (slot : Nat) :
    ';' ∉ (slotLine name slot).toList := by
  have hname := notMem_of_all (c := ';') (by decide) (all_of_isIdentifier h)
  have hdigits := notMem_of_all (c := ';') (by decide) (all_plain_digits slot)
  simp [toList_slotLine, hname, hdigits]

end Lines

namespace Image

variable {im : Image} {b : Body} {a n : Nat} {i : Instruction} {line operand : String}

def IsTarget (im : Image) (n : Nat) : Prop :=
  ∃ (a : Nat) (i : Instruction) (target : Word), .ok (a, i) ∈ im.instructions ∧
    i.jumpTarget a = some target ∧ target.toInt = n

theorem mem_jumpTargets : n ∈ im.jumpTargets ↔ im.IsTarget n := by
  rw [jumpTargets, mem_eraseReps, List.mem_mergeSort, List.mem_filterMap]
  constructor
  · rintro ⟨decoded, hmem, htarget⟩
    cases decoded with
    | error e => simp at htarget
    | ok placed =>
      obtain ⟨target, hjump, hn⟩ := Option.bind_eq_some_iff.mp htarget
      exact ⟨placed.1, placed.2, target, hmem, hjump, Word.toIndex?_eq_some_iff.mp hn⟩
  · rintro ⟨a, i, target, hmem, hjump, hn⟩
    exact ⟨.ok (a, i), hmem, by simp [hjump, Word.toIndex?_eq_some_iff.mpr hn]⟩

/-- The operand of an instruction as it should show in the section of a body: a slot as its name, a
call as the name of the body it leads to and the count of arguments, and a jump as the address it
leads to or as the end of the stream. -/
inductive Shows (im : Image) (b : Body) (a : Nat) : Instruction → String → Prop where
  | load {slot : Word} {k : Nat} {name : String} (hslot : slot.toInt = k)
      (hname : b.locals[k]? = some name) : Shows im b a (.load slot) name
  | store {slot : Word} {k : Nat} {name : String} (hslot : slot.toInt = k)
      (hname : b.locals[k]? = some name) : Shows im b a (.store slot) name
  | int (value : Word) : Shows im b a (.int value) value.text
  | stackAdjust (count : Word) : Shows im b a (.stackAdjust count) count.text
  | toEnd {i : Instruction} {target : Word} (hjump : i.jumpTarget a = some target)
      (htarget : target.toInt = im.code.size) : Shows im b a i "end"
  | within {i : Instruction} {target : Word} {n : Nat} (hjump : i.jumpTarget a = some target)
      (htarget : target.toInt = n) (hn : n < im.code.size) : Shows im b a i (toString n)
  | call {argc target : Word} {callee : Body} {count : Nat} (hcallee : callee ∈ im.bodies)
      (htarget : target.toInt = callee.start) (hcount : argc.toInt = count) :
      Shows im b a (.call argc target) (callee.name ++ ", " ++ toString count)
  | plain {i : Instruction} (h : i.immediates = []) : Shows im b a i ""

def IsLineWith (im : Image) (b : Body) (a : Nat) (i : Instruction) (operand line : String) : Prop :=
  im.Shows b a i operand ∧ line.toList = lineText a i.opcode operand.toList

def IsLine (im : Image) (b : Body) (a : Nat) (i : Instruction) (line : String) : Prop :=
  ∃ operand, im.IsLineWith b a i operand line

inductive CodeLines (im : Image) (b : Body) : List (Nat × Instruction) → List String → Prop where
  | nil : CodeLines im b [] []
  | labelled {a : Nat} {i : Instruction} {placed : List (Nat × Instruction)} {line : String}
      {lines : List String} (ha : im.IsTarget a) (hline : im.IsLine b a i line)
      (hlines : CodeLines im b placed lines) :
      CodeLines im b ((a, i) :: placed) (labelLine a :: line :: lines)
  | unlabelled {a : Nat} {i : Instruction} {placed : List (Nat × Instruction)} {line : String}
      {lines : List String} (ha : ¬ im.IsTarget a) (hline : im.IsLine b a i line)
      (hlines : CodeLines im b placed lines) :
      CodeLines im b ((a, i) :: placed) (line :: lines)

def IsSection (im : Image) (b : Body) (lines : List String) : Prop :=
  ∃ is code, im.Fills b is ∧ im.CodeLines b (Instruction.place b.start is) code ∧
    lines = b.header :: (b.locals.mapIdx fun k name => slotLine name k) ++ code

theorem Shows.all_plain (him : Named im.bodies) (hb : b ∈ im.bodies)
    (h : im.Shows b a i operand) : operand.toList.all isPlainChar = true := by
  cases h with
  | load hslot hname | store hslot hname =>
    exact all_plain_of_all_name
      (all_of_isIdentifier (him.locals b hb _ (List.mem_of_getElem? hname)))
  | int w | stackAdjust w => exact w.all_plain_text
  | toEnd => decide
  | within => simpa using all_plain_digits _
  | call hcallee =>
    have hname := Body.all_plain_name (him.names _ hcallee)
    have hcomma : isPlainChar ',' = true := by decide
    have hblank : isPlainChar ' ' = true := by decide
    simpa [hname, hcomma, hblank] using all_plain_digits _
  | plain => rfl

theorem IsLine.all_plain (him : Named im.bodies) (hb : b ∈ im.bodies)
    (h : im.IsLine b a i line) : line.toList.all isPlainChar = true := by
  obtain ⟨operand, hoperand, hline⟩ := h
  rw [hline]
  exact all_plain_lineText a i.opcode (hoperand.all_plain him hb)

theorem CodeLines.all_plain (him : Named im.bodies) (hb : b ∈ im.bodies)
    {placed : List (Nat × Instruction)} {lines : List String} (h : im.CodeLines b placed lines) :
    ∀ line ∈ lines, line.toList.all isPlainChar = true := by
  induction h with
  | nil => simp
  | @labelled a i placed line lines ha hline hlines ih =>
    rw [List.forall_mem_cons, List.forall_mem_cons]
    exact ⟨all_plain_labelLine a, hline.all_plain him hb, ih⟩
  | unlabelled ha hline hlines ih =>
    rw [List.forall_mem_cons]
    exact ⟨hline.all_plain him hb, ih⟩

/-- Only the lines of slots have a mark. -/
theorem IsSection.line_cases (him : Named im.bodies) (hb : b ∈ im.bodies) {lines : List String}
    (h : im.IsSection b lines) (hl : line ∈ lines) : line.toList.all isPlainChar = true ∨
      ∃ k name, b.locals[k]? = some name ∧ line = slotLine name k := by
  obtain ⟨is, code, -, hcode, rfl⟩ := h
  rw [List.cons_append, List.mem_cons, List.mem_append, List.mem_mapIdx] at hl
  obtain rfl | ⟨k, hk, rfl⟩ | hl := hl
  · exact Or.inl (Body.all_plain_header (him.names b hb))
  · exact Or.inr ⟨k, _, List.getElem?_eq_getElem hk, rfl⟩
  · exact Or.inl (hcode.all_plain him hb line hl)

section Entries

variable {is : List Instruction}

def placedIn (im : Image) (b : Body) : List (Nat × Instruction) :=
  (sweep im.code b.start b.stop).filterMap Except.toOption

theorem Fills.placedIn_eq (h : im.Fills b is) : im.placedIn b = Instruction.place b.start is := by
  rw [placedIn, h.decodes, List.filterMap_map]
  exact List.filterMap_some

def entries (im : Image) : List (Body × Nat × Instruction) :=
  im.bodies.flatMap fun b => (im.placedIn b).map (b, ·)

theorem mem_entries (h : im.Legible) :
    (b, a, i) ∈ im.entries ↔ b ∈ im.bodies ∧ im.Has b a i := by
  simp only [entries, List.mem_flatMap, List.mem_map]
  constructor
  · rintro ⟨b', hb, placed, hmem, heq⟩
    cases heq
    obtain ⟨is, hfills, -⟩ := h.exists_fills hb
    rw [hfills.placedIn_eq] at hmem
    exact ⟨hb, hfills.has_iff.mpr hmem⟩
  · rintro ⟨hb, hhas⟩
    obtain ⟨is, hfills, -⟩ := h.exists_fills hb
    refine ⟨b, hb, (a, i), ?_, rfl⟩
    rw [hfills.placedIn_eq]
    exact hfills.has_iff.mp hhas

/-- No address is that of two entries. -/
theorem nodup_entries (h : im.Legible) (hseal : im.Sealed) :
    (im.entries.map fun entry => entry.2.1).Nodup := by
  obtain ⟨is, hplace, -⟩ := exists_place hseal.controlled.decodes
  have hplaced : im.entries.map Prod.snd = Instruction.place 0 is := by
    have hinj : Function.Injective (Except.ok : Nat × Instruction → Decoded) :=
      fun _ _ heq => Except.ok.inj heq
    refine List.map_injective_iff.mpr hinj ?_
    rw [← hplace, hseal.swept, entries, List.map_map, List.map_flatMap]
    refine List.flatMap_congr fun b hb => ?_
    obtain ⟨is, hfills, -⟩ := h.exists_fills hb
    rw [hfills.placedIn_eq, hfills.decodes, List.map_map]
    rfl
  have hsorted := Instruction.pairwise_place 0 is
  rw [← hplaced, List.map_map] at hsorted
  exact hsorted.imp Nat.ne_of_lt

/-- Lines other than headers come from within the bodies. -/
theorem filter_listingLines (h : im.Legible) {kind : LineKind} (hkind : kind ≠ .header) :
    im.listingLines.filter (ofKind kind) =
      im.bodies.flatMap fun b => (im.innerLines b).filter (ofKind kind) := by
  have hheader : ∀ line, LineKind.ofLine line = .header → ofKind kind line = false := by
    intro line hline
    simpa [ofKind, hline] using hkind.symm
  have hend : ofKind kind "end:" = false := hheader _ (by decide)
  rw [listingLines_eq, List.filter_append, List.filter_flatMap, List.filter_singleton, hend,
    cond_false, List.append_nil]
  refine List.flatMap_congr fun b hb => ?_
  rw [List.filter_cons, hheader _ (LineKind.ofLine_header (h.names b hb)), if_neg Bool.false_ne_true]

/-- The instructions of a listing in its lines. -/
theorem filter_instructionLines (h : im.Legible) :
    im.listingLines.filter (ofKind .instruction) =
      im.entries.map fun (b, a, i) => im.instructionLine b a i := by
  rw [filter_listingLines h (by decide), entries, List.map_flatMap]
  refine List.flatMap_congr fun b hb => ?_
  obtain ⟨is, hfills, -⟩ := h.exists_fills hb
  rw [filter_instructions h.toNamed hb hfills, hfills.placedIn_eq, List.map_map]
  rfl

/-- The labels of a body in its lines. -/
theorem filter_labels (him : Named im.bodies) (hb : b ∈ im.bodies) (h : im.Fills b is) :
    (im.innerLines b).filter (ofKind .label) =
      ((Instruction.place b.start is).filter fun placed => im.jumpTargets.contains placed.1).map
        fun placed => labelLine placed.1 := by
  have hslots : (slotLines b).filter (ofKind .label) = [] :=
    List.filter_eq_nil_iff.mpr fun line hl => by simp [ofKind, kind_slotLines hl]
  rw [innerLines_of_fills h, List.filter_append, hslots, List.filter_flatMap, ← flatMap_ite]
  refine congrArg (List.flatMap · _) (funext fun placed => ?_)
  dsimp only
  split <;> simp [ofKind, LineKind.ofLine_label, kind_instructionLine him hb]

/-- The labels of a listing in its lines. -/
theorem filter_labelLines (h : im.Legible) :
    im.listingLines.filter (ofKind .label) =
      (im.entries.filter fun entry => im.jumpTargets.contains entry.2.1).map
        fun entry => labelLine entry.2.1 := by
  rw [filter_listingLines h (by decide), entries, List.filter_flatMap, List.map_flatMap]
  refine List.flatMap_congr fun b hb => ?_
  obtain ⟨is, hfills, -⟩ := h.exists_fills hb
  rw [filter_labels h.toNamed hb hfills, hfills.placedIn_eq, List.filter_map, List.map_map]
  rfl

theorem isLineAt_instructionLine (him : Named im.bodies) (hb : b ∈ im.bodies) :
    isLineAt a (im.instructionLine b n i) = (n == a) :=
  isLineAt_lineText (toList_instructionLine (solid_operandText him hb n i))

/-- Each address of an instruction begins exactly one line. -/
theorem countP_isLineAt (h : im.Legible) (hseal : im.Sealed) (hentry : (b, a, i) ∈ im.entries) :
    im.listingLines.countP (isLineAt a) = 1 := by
  calc im.listingLines.countP (isLineAt a)
      = (im.listingLines.filter (ofKind .instruction)).countP (isLineAt a) := by
        rw [List.countP_filter]
        refine List.countP_congr fun line _ => ?_
        rw [Bool.and_eq_true, iff_self_and]
        intro hat
        simp [ofKind, ofLine_of_isLineAt hat]
    _ = im.entries.countP (·.2.1 == a) := by
        rw [filter_instructionLines h, List.countP_map]
        refine List.countP_congr fun entry hmem => ?_
        rw [← isLineAt_instructionLine (i := entry.2.2) h.toNamed ((mem_entries h).mp hmem).1]
        rfl
    _ = (im.entries.map fun entry => entry.2.1).count a := by
        rw [List.count, List.countP_map]
        rfl
    _ = 1 := List.count_eq_one_of_mem (nodup_entries h hseal)
        (List.mem_map.mpr ⟨(b, a, i), hentry, rfl⟩)

/-- The line of an instruction is the only one that begins with its address. -/
theorem filter_isLineAt (h : im.Legible) (hseal : im.Sealed) (hb : b ∈ im.bodies)
    (hi : im.Has b a i) :
    im.listingLines.filter (isLineAt a) = [im.instructionLine b a i] := by
  have hentry := (mem_entries h).mpr ⟨hb, hi⟩
  have hmem : im.instructionLine b a i ∈ im.listingLines.filter (isLineAt a) := by
    have hline := List.mem_map_of_mem (f := fun (b, a, i) => im.instructionLine b a i) hentry
    rw [← filter_instructionLines h] at hline
    refine List.mem_filter.mpr ⟨List.mem_of_mem_filter hline, ?_⟩
    rw [isLineAt_instructionLine h.toNamed hb, beq_self_eq_true]
  have hone := countP_isLineAt h hseal hentry
  rw [List.countP_eq_length_filter, List.length_eq_one_iff] at hone
  obtain ⟨line, hlines⟩ := hone
  rw [hlines, List.mem_singleton] at hmem
  rw [hlines, hmem]

/-- An address of an instruction that a jump leads to has exactly one label. -/
theorem count_labelLine (h : im.Legible) (hseal : im.Sealed) (hb : b ∈ im.bodies)
    (hi : im.Has b a i) (ha : im.IsTarget a) : im.listingLines.count (labelLine a) = 1 := by
  have hinj : Function.Injective labelLine := fun _ _ => labelLine_inj
  have hkind : ofKind .label (labelLine a) = true := by simp [ofKind, LineKind.ofLine_label]
  generalize htargeted :
    (im.entries.filter fun entry => im.jumpTargets.contains entry.2.1) = targeted
  have hmem : a ∈ targeted.map fun entry => entry.2.1 := by
    refine List.mem_map.mpr ⟨(b, a, i), ?_, rfl⟩
    rw [← htargeted, List.mem_filter]
    exact ⟨(mem_entries h).mpr ⟨hb, hi⟩, by simpa using mem_jumpTargets.mpr ha⟩
  have hnodup : (targeted.map fun entry => entry.2.1).Nodup := by
    rw [← htargeted]
    exact (nodup_entries h hseal).sublist (List.filter_sublist.map _)
  calc im.listingLines.count (labelLine a)
      = (im.listingLines.filter (ofKind .label)).count (labelLine a) :=
        (List.count_filter hkind).symm
    _ = ((targeted.map fun entry => entry.2.1).map labelLine).count (labelLine a) := by
        rw [filter_labelLines h, htargeted, List.map_map]
        rfl
    _ = (targeted.map fun entry => entry.2.1).count a :=
        List.count_map_of_injective _ _ hinj a
    _ = 1 := List.count_eq_one_of_mem hnodup hmem

end Entries

theorem codeLines_of_isLine {placed : List (Nat × Instruction)}
    (h : ∀ a i, (a, i) ∈ placed → im.IsLine b a i (im.instructionLine b a i)) :
    im.CodeLines b placed (placed.flatMap fun (a, i) =>
      (if im.jumpTargets.contains a then [labelLine a] else []) ++ [im.instructionLine b a i]) := by
  induction placed with
  | nil => exact .nil
  | cons first placed ih =>
    obtain ⟨a, i⟩ := first
    have hline := h a i List.mem_cons_self
    have hrest := ih fun a i hmem => h a i (List.mem_cons_of_mem _ hmem)
    by_cases ha : im.IsTarget a
    · have hlabel := mem_jumpTargets.mpr ha
      simpa [hlabel] using CodeLines.labelled ha hline hrest
    · have hlabel : a ∉ im.jumpTargets := fun hmem => ha (mem_jumpTargets.mp hmem)
      simpa [hlabel] using CodeLines.unlabelled ha hline hrest

theorem slotLines_eq_mapIdx (b : Body) :
    slotLines b = b.locals.mapIdx fun k name => slotLine name k := by
  rw [List.mapIdx_eq_zipIdx_map]
  rfl

theorem isSection_of_isLine {is : List Instruction} (hfills : im.Fills b is)
    (h : ∀ a i, im.Has b a i → im.IsLine b a i (im.instructionLine b a i)) :
    im.IsSection b (im.bodyLines im.jumpTargets b) := by
  refine ⟨is, _, hfills, codeLines_of_isLine fun a i hmem => h a i (hfills.has_iff.mpr hmem), ?_⟩
  rw [← slotLines_eq_mapIdx]
  exact congrArg (b.header :: ·) (innerLines_of_fills hfills)

theorem mem_bodyLines (hi : im.Has b a i)
    (hl : line ∈ im.decodedLines im.jumpTargets b (.ok (a, i))) :
    line ∈ im.bodyLines im.jumpTargets b :=
  List.mem_append_right _ (List.mem_flatMap.mpr ⟨_, hi, hl⟩)

def linesOf (im : Image) (sections : Body → List String) : List String :=
  im.bodies.flatMap sections ++ ["end:"]

theorem linesOf_cases (him : Named im.bodies) {sections : Body → List String}
    (h : ∀ b ∈ im.bodies, im.IsSection b (sections b)) (hl : line ∈ im.linesOf sections) :
    line.toList.all isPlainChar = true ∨
      ∃ b ∈ im.bodies, ∃ k name, b.locals[k]? = some name ∧ line = slotLine name k := by
  rw [linesOf, List.mem_append, List.mem_flatMap, List.mem_singleton] at hl
  obtain ⟨b, hb, hl⟩ | rfl := hl
  · exact ((h b hb).line_cases him hb hl).imp_right fun hslot => ⟨b, hb, hslot⟩
  · exact Or.inl (by decide)

structure Listed (im : Image) (sections : Body → List String) : Prop where
  text : im.listing = String.join ((im.linesOf sections).map (· ++ "\n"))
  unbroken : ∀ line ∈ im.linesOf sections, '\n' ∉ line.toList
  formed : ∀ b ∈ im.bodies, im.IsSection b (sections b)
  /-- Every instruction of the stream has a line, and no other line begins with its address. -/
  once : ∀ a i, .ok (a, i) ∈ im.instructions → ∃ b ∈ im.bodies, ∃ line ∈ sections b,
    im.IsLine b a i line ∧ (im.linesOf sections).filter (isLineAt a) = [line]
  /-- The line of a jump shows the end of the stream, or an address with one label, in the jump's
  section. -/
  jumps : ∀ b ∈ im.bodies, ∀ a i offset, im.Has b a i → i.offset? = some offset →
    ∃ line ∈ sections b, ∃ target : Word, i.jumpTarget a = some target ∧
      (target.toInt = im.code.size ∧ im.IsLineWith b a i "end" line ∨
        ∃ n < im.code.size, target.toInt = n ∧ im.IsLineWith b a i (toString n) line ∧
          labelLine n ∈ sections b ∧ (im.linesOf sections).count (labelLine n) = 1)
  /-- Marks stand in front of the numbers of slots, and nowhere for want of a name. -/
  marks : ∀ line ∈ im.linesOf sections, '@' ∈ line.toList →
    ∃ b ∈ im.bodies, ∃ k name, b.locals[k]? = some name ∧ line = slotLine name k
  /-- No remark says that a stretch cannot be read. -/
  remarks : ∀ line ∈ im.linesOf sections, ';' ∉ line.toList

end Image

namespace Program

variable {p : Program} {im : Image} {b : Body} {a : Nat} {i : Instruction}

section Operands

variable (hc : p.compile = .ok im) (hsize : im.code.size < addressSpace) (hb : b ∈ im.bodies)

include hc hb

/-- The slots in the code of a body have names, and show as them. -/
theorem shows_slot (hlocals : b.locals.length < addressSpace) {slot : Word} (hi : im.Has b a i)
    (hslot : i = .load slot ∨ i = .store slot) :
    ∃ k name, slot.toInt = (k : Nat) ∧ b.locals[k]? = some name ∧
      im.operandText b a i = name := by
  obtain ⟨he, -⟩ := compile_eq_ok hc
  obtain ⟨f, hf, hplaced, hfills⟩ := exists_fills hc hb
  have hnames : b.locals = f.names := by
    rw [hplaced]
    rfl
  have hmem : i ∈ f.assemble p.target b.start im.code.size := by
    rw [← Instruction.map_snd_place b.start (f.assemble p.target b.start im.code.size)]
    exact List.mem_map_of_mem (hfills.has_iff.mp hi)
  have hrefers := Function.refers (errors_body he hf) p.target b.start im.code.size i hmem
  obtain ⟨name, hname, rfl⟩ : ∃ name ∈ f.names, slot = .ofNat (f.names.idxOf name) := by
    obtain rfl | rfl := hslot
    · exact hrefers
    · exact hrefers
  have hlt := List.idxOf_lt_length_of_mem hname
  rw [hnames] at hlocals
  have hvalue : (Int64.ofNat (f.names.idxOf name)).toInt = f.names.idxOf name :=
    Word.toInt_ofNat (Nat.lt_trans hlt hlocals)
  have hfound : b.locals[f.names.idxOf name]? = some name := by
    rw [hnames, List.getElem?_eq_getElem hlt, List.getElem_idxOf hlt]
  refine ⟨_, name, hvalue, hfound, ?_⟩
  obtain rfl | rfl := hslot
  · simp [Image.operandText, Word.toIndex?_eq_some_iff.mpr hvalue, hfound]
  · simp [Image.operandText, Word.toIndex?_eq_some_iff.mpr hvalue, hfound]

include hsize

/-- Where the jumps of a body lead and what they show. -/
theorem shows_jump {offset : Word} (hi : im.Has b a i) (hoffset : i.offset? = some offset) :
    ∃ n, i.jumpTarget a = some (.ofNat n) ∧
      (n = im.code.size ∧ im.operandText b a i = "end" ∨
        n < im.code.size ∧ im.operandText b a i = toString n ∧ ∃ j, im.Has b n j) := by
  obtain ⟨n, hlands, hle, -, htarget⟩ := jumps_of_compile hc hsize hb hi hoffset
  have hn : (Int64.ofNat n).toInt = n := Word.toInt_ofNat (by omega)
  refine ⟨n, htarget, ?_⟩
  rw [Image.operandText_jump im b a hoffset, htarget, Image.targetText]
  obtain rfl | ⟨j, hj⟩ := hlands
  · simp
  · have hstop := ((tiles_of_compile hc).bounds hb).2.2
    have hinside := inside_of_compile hc hb hj
    have hpos := j.width_pos
    have hlt : n < im.code.size := by omega
    have hne : Int64.ofNat n ≠ Int64.ofNat im.code.size := by
      intro heq
      rw [heq, Word.toInt_ofNat hsize] at hn
      omega
    exact Or.inr ⟨hlt, by simp [hne, Word.text_of_toInt hn], j, hj⟩

theorem shows_of_compile (hlocals : b.locals.length < addressSpace) (hi : im.Has b a i) :
    im.Shows b a i (im.operandText b a i) := by
  have hjump : ∀ offset, i.offset? = some offset → im.Shows b a i (im.operandText b a i) := by
    intro offset hoffset
    obtain ⟨n, htarget, ⟨rfl, htext⟩ | ⟨hlt, htext, -⟩⟩ := shows_jump hc hsize hb hi hoffset
    · rw [htext]
      exact .toEnd htarget (Word.toInt_ofNat hsize)
    · rw [htext]
      exact .within htarget (Word.toInt_ofNat (by omega)) hlt
  cases i with
  | load slot =>
    obtain ⟨k, name, hslot, hname, htext⟩ := shows_slot hc hb hlocals hi (Or.inl rfl)
    rw [htext]
    exact .load hslot hname
  | store slot =>
    obtain ⟨k, name, hslot, hname, htext⟩ := shows_slot hc hb hlocals hi (Or.inr rfl)
    rw [htext]
    exact .store hslot hname
  | int value => exact .int value
  | stackAdjust count => exact .stackAdjust count
  | jump offset | jumpIfFalse offset => exact hjump offset rfl
  | call argc target =>
    obtain ⟨callee, hcallee, htarget, hargc⟩ := calls_of_compile hc hsize hb hi
    have hbody := (sealed_of_compile hc hsize).bodyAt? hcallee
    have hcount := Word.toIndex?_eq_some_iff.mp hargc
    have htext : im.operandText b a (.call argc target) =
        callee.name ++ ", " ++ toString callee.arity := by
      simp [Image.operandText, htarget, hbody, Word.text_of_toInt hcount]
    rw [htext]
    exact .call hcallee (Word.toIndex?_eq_some_iff.mp htarget) hcount
  | unary op | binary op | ret | pop => exact .plain rfl

end Operands

/-- The listing of a program whose names are identifiers has a section for each body in which slots,
calls and jumps show as what they stand for. The code and the slots of each body fit into memory. -/
theorem compile_listed (p : Program) (im : Image) (hc : p.compile = .ok im)
    (hsize : im.code.size < addressSpace)
    (hlocals : ∀ b ∈ im.bodies, b.locals.length < addressSpace)
    (hnames : ∀ name ∈ p.mentions, isIdentifier name = true) :
    im.Listed (im.bodyLines im.jumpTargets) := by
  have hlegible := legible_of_compile hc hsize hnames
  have hsealed := sealed_of_compile hc hsize
  have hlines : ∀ b ∈ im.bodies, ∀ a i, im.Has b a i →
      im.instructionLine b a i ∈ im.bodyLines im.jumpTargets b ∧
        im.IsLineWith b a i (im.operandText b a i) (im.instructionLine b a i) := by
    intro b hb a i hi
    refine ⟨Image.mem_bodyLines hi (List.mem_append_right _ (List.mem_singleton_self _)),
      shows_of_compile hc hsize hb (hlocals b hb) hi, ?_⟩
    exact toList_instructionLine (Image.solid_operandText hlegible.toNamed hb a i)
  have hformed : ∀ b ∈ im.bodies, im.IsSection b (im.bodyLines im.jumpTargets b) := by
    intro b hb
    obtain ⟨is, hfills, -⟩ := hlegible.exists_fills hb
    exact Image.isSection_of_isLine hfills fun a i hi => ⟨_, (hlines b hb a i hi).2⟩
  refine ⟨rfl, fun _ => hlegible.newline_notMem, hformed, ?_, ?_, ?_, ?_⟩
  · intro a i hi
    obtain ⟨b, hb, hi⟩ := hsealed.mem_instructions.mp hi
    obtain ⟨hmem, hline⟩ := hlines b hb a i hi
    exact ⟨b, hb, _, hmem, ⟨_, hline⟩, Image.filter_isLineAt hlegible hsealed hb hi⟩
  · intro b hb a i offset hi hoffset
    obtain ⟨hmem, hline⟩ := hlines b hb a i hi
    obtain ⟨n, htarget, ⟨rfl, htext⟩ | ⟨hlt, htext, j, hj⟩⟩ := shows_jump hc hsize hb hi hoffset
    · rw [htext] at hline
      exact ⟨_, hmem, _, htarget, Or.inl ⟨Word.toInt_ofNat hsize, hline⟩⟩
    · rw [htext] at hline
      have hn : (Int64.ofNat n).toInt = n := Word.toInt_ofNat (by omega)
      have hin : im.IsTarget n :=
        ⟨a, i, _, hsealed.mem_instructions.mpr ⟨b, hb, hi⟩, htarget, hn⟩
      have hlabel : labelLine n ∈ im.bodyLines im.jumpTargets b := by
        refine Image.mem_bodyLines hj (List.mem_append_left _ ?_)
        simp [Image.mem_jumpTargets.mpr hin, labelLine]
      exact ⟨_, hmem, _, htarget, Or.inr ⟨n, hlt, hn, hline, hlabel,
        Image.count_labelLine hlegible hsealed hb hj hin⟩⟩
  · intro line hl hmark
    obtain hplain | hslot := Image.linesOf_cases hlegible.toNamed hformed hl
    · exact absurd hmark (notMem_of_all (by decide) hplain)
    · exact hslot
  · intro line hl
    obtain hplain | ⟨b, hb, k, name, hname, rfl⟩ :=
      Image.linesOf_cases hlegible.toNamed hformed hl
    · exact notMem_of_all (by decide) hplain
    · exact semicolon_notMem_slotLine
        (hlegible.locals b hb name (List.mem_of_getElem? hname)) k

theorem compile_listed_factorial :
    ∃ im, (Sample.factorialOf 10).compile = .ok im ∧ im.code.size < addressSpace ∧
      (∀ b ∈ im.bodies, b.locals.length < addressSpace) ∧
      (∀ name ∈ (Sample.factorialOf 10).mentions, isIdentifier name = true) ∧
      im.Listed (im.bodyLines im.jumpTargets) := by
  have hc : (Sample.factorialOf 10).compile = .ok _ := rfl
  have hsize : (Sample.factorialOf 10).emission.patched.size < addressSpace := by decide
  have hlocals : ∀ b ∈ (Sample.factorialOf 10).emission.bodies,
      b.locals.length < addressSpace := by decide
  have hnames : ∀ name ∈ (Sample.factorialOf 10).mentions, isIdentifier name = true := by decide
  exact ⟨_, hc, hsize, hlocals, hnames, compile_listed _ _ hc hsize hlocals hnames⟩

end Program

end Wordcode
