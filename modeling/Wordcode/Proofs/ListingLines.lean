import Mathlib.Data.List.DropRight
import Wordcode.Code.Listing
import Wordcode.Compile.Lowering
import Wordcode.Proofs.Lexeme

/-!
The lines of a listing. Each kind of line shows in how the line begins, and a line determines what
it was made from.
-/

namespace Wordcode

/-- Text within a line that does not end in a blank. -/
def Solid (cs : List Char) : Prop := '\n' ∉ cs ∧ ∀ c ∈ cs.getLast?, Text.isBlank c = false

section Solid

variable {cs r s : List Char}

theorem isBlank_of_isNameChar {c : Char} (h : isNameChar c = true) : Text.isBlank c = false := by
  have hrange : 48 ≤ c.toNat ∧ c.toNat ≤ 122 := by
    simp only [isNameChar, Char.isAlphanum, Bool.or_eq_true, beq_iff_eq] at h
    obtain (halpha | hdigit) | rfl := h
    · have hletter := isAlpha_range halpha
      omega
    · have hdigit := isDigit_range hdigit
      omega
    · decide
  simp only [Text.isBlank, Text.blankRanges, List.any_cons, List.any_nil, Bool.or_false,
    Bool.or_eq_false_iff, Bool.and_eq_false_iff, decide_eq_false_iff_not]
  omega

theorem solid_append (hr : '\n' ∉ r) (hs : Solid s) (hne : s ≠ []) : Solid (r ++ s) := by
  refine ⟨by simp [hr, hs.1], ?_⟩
  rw [List.getLast?_append_of_ne_nil r hne]
  exact hs.2

theorem solid_of_all (h : cs.all isNameChar = true) : Solid cs := by
  refine ⟨notMem_of_all (by decide) h, fun c hc => ?_⟩
  exact isBlank_of_isNameChar (List.all_eq_true.mp h c (List.mem_of_getLast? hc))

theorem solid_digits (n : Nat) : Solid (Nat.toDigits 10 n) :=
  solid_of_all (List.all_eq_true.mpr fun c hc =>
    isNameChar_of_digit (List.all_eq_true.mp (all_toDigits n) c hc))

theorem Word.solid_text (w : Word) : Solid w.text.toList := by
  by_cases hw : 0 ≤ w.toInt
  · rw [toList_text_of_nonneg hw]
    exact solid_digits _
  · rw [toList_text_of_neg (Int.not_le.mp hw)]
    exact solid_append (r := ['-']) (by decide) (solid_digits _) Nat.toDigits_ne_nil

theorem Word.all_text (w : Word) :
    w.text.toList.all (fun c => isNameChar c || c == '-') = true := by
  have hdigits : ∀ n, (Nat.toDigits 10 n).all (fun c => isNameChar c || c == '-') = true := by
    intro n
    have hall := all_toDigits n
    grind [isNameChar_of_digit]
  by_cases hw : 0 ≤ w.toInt
  · rw [toList_text_of_nonneg hw]
    exact hdigits _
  · simp [toList_text_of_neg (Int.not_le.mp hw), hdigits]

theorem Word.text_ne_nil (w : Word) : w.text.toList ≠ [] := by
  by_cases hw : 0 ≤ w.toInt
  · simp [toList_text_of_nonneg hw]
  · simp [toList_text_of_neg (Int.not_le.mp hw)]

end Solid

section Trimming

variable {cs r s : List Char}

theorem toList_trimEnd (s : String) :
    (Text.trimEnd s).toList = s.toList.rdropWhile Text.isBlank := by
  simp [Text.trimEnd, List.rdropWhile]

theorem rdropWhile_blanks (n : Nat) :
    (cs ++ List.replicate n ' ').rdropWhile Text.isBlank = cs.rdropWhile Text.isBlank := by
  induction n with
  | zero => simp
  | succ n ih =>
    rw [List.replicate_succ', ← List.append_assoc, List.rdropWhile_concat_pos _ _ _ (by decide), ih]

theorem rdropWhile_of_solid (hs : Solid s) (hne : s ≠ []) :
    (r ++ s).rdropWhile Text.isBlank = r ++ s := by
  have hlast := hs.2 (s.getLast hne) (List.getLast?_eq_some_getLast hne)
  rw [List.rdropWhile_eq_self_iff]
  intro _
  rw [List.getLast_append_of_ne_nil _ hne, hlast]
  decide

end Trimming

namespace Opcode

theorem all_mnemonic (op : Opcode) : op.mnemonic.toList.all isNameChar = true := by
  cases op with
  | unary op => cases op <;> decide
  | binary op => cases op <;> decide
  | _ => decide

theorem mnemonic_ne_nil (op : Opcode) : op.mnemonic.toList ≠ [] := by
  cases op with
  | unary op => cases op <;> decide
  | binary op => cases op <;> decide
  | _ => decide

theorem mnemonic_inj {op op' : Opcode} (h : op.mnemonic = op'.mnemonic) : op = op' := by
  have hfind : ∀ op : Opcode, all.find? (·.mnemonic == op.mnemonic) = some op := by
    intro op
    cases op with
    | unary op => cases op <;> rfl
    | binary op => cases op <;> rfl
    | _ => rfl
  have hop := hfind op
  rw [h, hfind op'] at hop
  exact (Option.some.inj hop).symm

end Opcode

section Instructions

variable {a a' : Nat} {op op' : Opcode} {operand operand' : List Char}

def operandColumn (op : Opcode) (operand : List Char) : List Char :=
  if operand = [] then [] else List.replicate (12 - op.mnemonic.length) ' ' ++ operand

def lineText (a : Nat) (op : Opcode) (operand : List Char) : List Char :=
  List.replicate (4 - (toString a).length) ' ' ++ (Nat.toDigits 10 a ++
    ' ' :: ' ' :: (op.mnemonic.toList ++ operandColumn op operand))

theorem toList_instructionLine {im : Image} {b : Body} {i : Instruction}
    (h : Solid (im.operandText b a i).toList) :
    (im.instructionLine b a i).toList = lineText a i.opcode (im.operandText b a i).toList := by
  generalize hhead : List.replicate (4 - (toString a).length) ' ' ++ (Nat.toDigits 10 a ++
    [' ', ' ']) = head
  have hline : (Text.padLeft 4 (toString a) ++ "  " ++ Text.padRight 12 i.opcode.mnemonic
      ++ im.operandText b a i).toList = head ++ i.opcode.mnemonic.toList ++
        List.replicate (12 - i.opcode.mnemonic.length) ' ' ++ (im.operandText b a i).toList := by
    simp [← hhead, Text.padLeft, Text.padRight]
  rw [Image.instructionLine, toList_trimEnd, hline, lineText, operandColumn]
  split
  -- without an operand the blanks that fill up the mnemonic go too
  next htext =>
    rw [htext, List.append_nil, rdropWhile_blanks,
      rdropWhile_of_solid (solid_of_all i.opcode.all_mnemonic) i.opcode.mnemonic_ne_nil]
    simp [← hhead]
  next htext =>
    rw [rdropWhile_of_solid h htext]
    simp [← hhead]

def Opcode.Columned (op : Opcode) (operand : List Char) : Prop :=
  operand ≠ [] → op.mnemonic.length < 12

theorem stops_operandColumn (h : op.Columned operand) :
    Stops isNameChar (operandColumn op operand) := by
  unfold operandColumn
  split
  next => simp [Stops]
  next hne =>
    obtain ⟨n, hn⟩ := Nat.exists_eq_succ_of_ne_zero (Nat.sub_ne_zero_of_lt (h hne))
    rw [hn, List.replicate_succ]
    exact stops_cons (by decide)

theorem operandColumn_inj (h : operandColumn op operand = operandColumn op operand') :
    operand = operand' := by
  by_cases hnil : operand = []
  · by_cases hnil' : operand' = []
    · rw [hnil, hnil']
    · simp [operandColumn, hnil, hnil'] at h
  · by_cases hnil' : operand' = []
    · simp [operandColumn, hnil, hnil'] at h
    · simpa [operandColumn, hnil, hnil'] using h

theorem stops_digits (n : Nat) {r : List Char} : Stops (· == ' ') (Nat.toDigits 10 n ++ r) := by
  obtain ⟨c, cs, hcs, hc⟩ := exists_toDigits n
  rw [hcs]
  exact stops_cons (by simpa using ne_of_class hc (by decide : Char.isDigit ' ' = false))

/-- An instruction line shows its address, its opcode and its operand. -/
theorem lineText_inj (h : op.Columned operand) (h' : op'.Columned operand')
    (heq : lineText a op operand = lineText a' op' operand') :
    a = a' ∧ op = op' ∧ operand = operand' := by
  have hblanks : ∀ n, (List.replicate n ' ').all (· == ' ') = true := by simp
  obtain ⟨-, hline⟩ :=
    append_inj_of_stops (hblanks _) (hblanks _) (stops_digits a) (stops_digits a') heq
  obtain ⟨haddress, hline⟩ :=
    toDigits_append_inj (stops_cons (by decide)) (stops_cons (by decide)) hline
  simp only [List.cons.injEq, true_and] at hline
  obtain ⟨hop, hcolumn⟩ := append_inj_of_stops op.all_mnemonic op'.all_mnemonic
    (stops_operandColumn h) (stops_operandColumn h') hline
  obtain rfl := Opcode.mnemonic_inj (String.toList_inj.mp hop)
  exact ⟨haddress, rfl, operandColumn_inj hcolumn⟩

end Instructions

section Headers

variable {name : String} {b b' : Body}

def isBodyName (name : String) : Bool := isIdentifier name || name == mainName

def isBodyNameChar (c : Char) : Bool := isNameChar c || c == '<' || c == '>'

theorem isBodyName_begins (h : isBodyName name = true) :
    ∃ c rest, name.toList = c :: rest ∧ (isNameStart c = true ∨ c = '<') := by
  simp only [isBodyName, Bool.or_eq_true, beq_iff_eq] at h
  obtain hname | rfl := h
  · obtain ⟨c, rest, hcons, hc, -⟩ := exists_of_isIdentifier hname
    exact ⟨c, rest, hcons, Or.inl hc⟩
  · exact ⟨'<', _, rfl, Or.inr rfl⟩

theorem all_of_isBodyName (h : isBodyName name = true) :
    name.toList.all isBodyNameChar = true := by
  simp only [isBodyName, Bool.or_eq_true, beq_iff_eq] at h
  obtain hname | rfl := h
  · have hall := all_of_isIdentifier hname
    grind [isBodyNameChar]
  · decide

def Body.header (b : Body) : String := b.name ++ s!"/{b.arity}:"

theorem Body.toList_header (b : Body) :
    b.header.toList = b.name.toList ++ '/' :: (Nat.toDigits 10 b.arity ++ [':']) := by
  simp [header, toString]

theorem Body.header_inj (h : isBodyName b.name = true) (h' : isBodyName b'.name = true)
    (heq : b.header = b'.header) : b.name = b'.name ∧ b.arity = b'.arity := by
  rw [← String.toList_inj, toList_header, toList_header] at heq
  have hslash : isBodyNameChar '/' = false := by decide
  obtain ⟨hname, hrest⟩ := append_inj_of_notMem (notMem_of_all hslash (all_of_isBodyName h))
    (notMem_of_all hslash (all_of_isBodyName h')) heq
  obtain ⟨harity, -⟩ :=
    toDigits_append_inj (stops_cons (by decide)) (stops_cons (by decide)) hrest
  exact ⟨String.toList_inj.mp hname, harity⟩

end Headers

section SlotLines

def slotLine (name : String) (slot : Nat) : String := "      local       " ++ name ++ s!", @{slot}"

theorem toList_slotLine (name : String) (slot : Nat) :
    (slotLine name slot).toList = "      local       ".toList ++
      (name.toList ++ ',' :: ' ' :: '@' :: Nat.toDigits 10 slot) := by
  unfold slotLine
  simp [toString]

theorem slotLine_inj {m n : String} {j k : Nat} (hm : isIdentifier m = true)
    (hn : isIdentifier n = true) (h : slotLine m j = slotLine n k) : m = n := by
  rw [← String.toList_inj, toList_slotLine, toList_slotLine] at h
  exact (name_append_inj hm hn (stops_cons (by decide)) (stops_cons (by decide))
    (List.append_cancel_left h)).1

end SlotLines

def labelLine (address : Nat) : String := s!"{address}:"

inductive LineKind where
  | header | slot | label | instruction
deriving DecidableEq

/-- Lines of instructions and labels begin with a number, the former after blanks at times; slot
lines are indented, and headers are not. -/
def LineKind.ofLine (line : String) : LineKind :=
  match line.toList.dropWhile (· == ' ') with
  | [] => .header
  | c :: rest =>
    if c.isDigit = true then if ' ' ∈ rest then .instruction else .label
    else if line.toList.head? = some ' ' then .slot
    else .header

namespace LineKind

variable {line : String} {b : Body}

theorem ofLine_header (h : isBodyName b.name = true) : ofLine b.header = .header := by
  obtain ⟨c, rest, hcons, hc⟩ := isBodyName_begins h
  have hblank : c ≠ ' ' := by
    obtain hstart | rfl := hc
    · exact ne_of_class hstart (by decide)
    · decide
  have hdigit : c.isDigit = false := by
    obtain hstart | rfl := hc
    · exact isDigit_of_isNameStart hstart
    · decide
  simp [ofLine, b.toList_header, hcons, hblank, hdigit]

theorem ofLine_slot (name : String) (slot : Nat) : ofLine (slotLine name slot) = .slot := by
  simp [ofLine, toList_slotLine]

theorem ofLine_label (a : Nat) : ofLine (labelLine a) = .label := by
  obtain ⟨c, cs, hcs, hc⟩ := exists_toDigits a
  have hall := all_toDigits a
  rw [hcs] at hall
  have hblank : c ≠ ' ' := ne_of_class hc (by decide)
  have hrest : ' ' ∉ cs := by
    intro hmem
    simpa using List.all_eq_true.mp hall _ (List.mem_cons_of_mem c hmem)
  simp [ofLine, labelLine, toString, hcs, hblank, hc, hrest]

theorem ofLine_instruction {a : Nat} {op : Opcode} {operand : List Char}
    (h : line.toList = lineText a op operand) : ofLine line = .instruction := by
  obtain ⟨c, cs, hcs, hc⟩ := exists_toDigits a
  rw [ofLine, h, lineText, dropWhile_of_stops (by simp) (stops_digits a), hcs]
  simp [hc]

end LineKind

section LineBreaks

theorem Body.newline_notMem_header {b : Body} (h : isBodyName b.name = true) :
    '\n' ∉ b.header.toList := by
  have hname := notMem_of_all (c := '\n') (by decide) (all_of_isBodyName h)
  simp [toList_header, hname, (solid_digits b.arity).1]

theorem newline_notMem_slotLine {name : String} (h : isIdentifier name = true) (slot : Nat) :
    '\n' ∉ (slotLine name slot).toList := by
  have hname := notMem_of_all (c := '\n') (by decide) (all_of_isIdentifier h)
  simp [toList_slotLine, hname, (solid_digits slot).1]

theorem newline_notMem_label (a : Nat) : '\n' ∉ (labelLine a).toList := by
  simp [labelLine, toString, (solid_digits a).1]

theorem newline_notMem_lineText {a : Nat} {op : Opcode} {operand : List Char}
    (h : Solid operand) : '\n' ∉ lineText a op operand := by
  have hcolumn : '\n' ∉ operandColumn op operand := by
    unfold operandColumn
    split <;> simp [h.1]
  have hmnemonic := (solid_of_all op.all_mnemonic).1
  simp [lineText, (solid_digits a).1, hmnemonic, hcolumn]

end LineBreaks

end Wordcode
