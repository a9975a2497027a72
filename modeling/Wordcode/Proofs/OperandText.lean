import Wordcode.Proofs.Lexeme
import Wordcode.Proofs.Renaming
import Wordcode.Tree.Text

/-!
The text of operands. It tells where an operand ends and how it is built, so operands in normal form
with the same text are the same but for positions, whatever follows them.
-/

namespace Wordcode

mutual
def Operand.isNormal : Operand → Bool
  | .int _ | .var _ _ => true
  | .unary _ x => x.isNormal
  | .chain first rest => !rest.isEmpty && first.isNormal && Links.isNormal rest
  | .group _ _ => false
  | .call _ args _ => Operand.allNormal args
def Links.isNormal : Links → Bool
  | [] => true
  | (_, x) :: rest => x.isNormal && Links.isNormal rest
def Operand.allNormal : List Operand → Bool
  | [] => true
  | x :: rest => x.isNormal && Operand.allNormal rest
end

def Operand.Canonical (x : Operand) : Prop := x.isNormal = true ∧ Spelled x.mentions

def Links.Canonical (rest : Links) : Prop :=
  Links.isNormal rest = true ∧ Spelled (Links.mentions rest)

def Operand.AllCanonical (xs : List Operand) : Prop :=
  Operand.allNormal xs = true ∧ Spelled (Operand.mentionsAll xs)

section Parts

variable {x first : Operand} {rest : Links} {name : String} {args : List Operand} {span : Span}

theorem Operand.canonical_var : (Operand.var name span).Canonical ↔ isIdentifier name = true := by
  simp [Operand.Canonical, Operand.isNormal, Operand.mentions]

theorem Operand.canonical_unary {op : UnaryOperator} :
    (Operand.unary op x).Canonical ↔ x.Canonical := by
  simp [Operand.Canonical, Operand.isNormal, Operand.mentions]

theorem Operand.canonical_chain :
    (Operand.chain first rest).Canonical ↔
      rest ≠ [] ∧ first.Canonical ∧ Links.Canonical rest := by
  simp only [Operand.Canonical, Links.Canonical, Operand.isNormal, Operand.mentions,
    spelled_append, Bool.and_eq_true, Bool.not_eq_true', List.isEmpty_eq_false_iff]
  grind

theorem Operand.not_canonical_group : ¬ (Operand.group first rest).Canonical := by
  simp [Operand.Canonical, Operand.isNormal]

theorem Operand.canonical_call :
    (Operand.call name args span).Canonical ↔
      isIdentifier name = true ∧ Operand.AllCanonical args := by
  simp only [Operand.Canonical, Operand.AllCanonical, Operand.isNormal, Operand.mentions,
    spelled_cons]
  grind

theorem Links.canonical_cons {op : BinaryOperator} :
    Links.Canonical ((op, x) :: rest) ↔ x.Canonical ∧ Links.Canonical rest := by
  simp only [Operand.Canonical, Links.Canonical, Links.isNormal, Links.mentions, spelled_append,
    Bool.and_eq_true]
  grind

theorem Operand.allCanonical_cons :
    Operand.AllCanonical (x :: args) ↔ x.Canonical ∧ Operand.AllCanonical args := by
  simp only [Operand.Canonical, Operand.AllCanonical, Operand.allNormal, Operand.mentionsAll,
    spelled_append, Bool.and_eq_true]
  grind

end Parts

namespace Operand

inductive Kind where
  | int | var | unary | chain | group | call
deriving DecidableEq

def kind : Operand → Kind
  | .int _ => .int
  | .var _ _ => .var
  | .unary _ _ => .unary
  | .chain _ _ => .chain
  | .group _ _ => .group
  | .call _ _ _ => .call

/-- The constructor of the operand that a text begins with, after its opening parenthesis. What
starts with a minus sign is a chain if a number follows and then a blank. -/
def kindWithin : List Char → Kind
  | [] => .chain
  | c :: rest =>
    if c = '-' then if (rest.dropWhile Char.isDigit).head? = some ' ' then .chain else .unary
    else if c = '+' ∨ c = '!' ∨ c = '~' then .unary
    else .chain

def kindAt : List Char → Kind
  | [] => .var
  | c :: rest =>
    if c = '(' then kindWithin rest
    else if c = '-' ∨ c.isDigit = true then .int
    else if (rest.dropWhile isNameChar).head? = some '(' then .call
    else .var

end Operand

def Delimited (r : List Char) : Prop := ∃ c rest, r = c :: rest ∧ c ∈ [')', ',', ' ', ';']

section Delimited

variable {r s : List Char}

theorem delimited_cons {c : Char} (h : c ∈ [')', ',', ' ', ';']) : Delimited (c :: r) :=
  ⟨c, r, rfl, h⟩

theorem Delimited.stops_digit (h : Delimited r) : Stops Char.isDigit r := by
  obtain ⟨c, rest, rfl, hc⟩ := h
  simp only [List.mem_cons, List.not_mem_nil, or_false] at hc
  obtain rfl | rfl | rfl | rfl := hc <;> exact stops_cons (by decide)

theorem Delimited.stops_name (h : Delimited r) : Stops isNameChar r := by
  obtain ⟨c, rest, rfl, hc⟩ := h
  simp only [List.mem_cons, List.not_mem_nil, or_false] at hc
  obtain rfl | rfl | rfl | rfl := hc <;> exact stops_cons (by decide)

theorem Delimited.head?_ne (h : Delimited r) : r.head? ≠ some '(' := by
  obtain ⟨c, rest, rfl, hc⟩ := h
  rintro heq
  cases heq
  simp at hc

end Delimited

namespace Operand

variable {x y : Operand} {r s : List Char}

/-- An operand that is no number begins with a parenthesis or a name. -/
theorem text_begins (hx : x.Canonical) :
    (∃ w, x = .int w) ∨
      ∃ c rest, x.text.toList = c :: rest ∧ (c = '(' ∨ isNameStart c = true) := by
  cases x with
  | int w => exact Or.inl ⟨w, rfl⟩
  | var name span =>
    obtain ⟨c, rest, hname, hc, -⟩ := exists_of_isIdentifier (canonical_var.mp hx)
    exact Or.inr ⟨c, rest, hname, Or.inr hc⟩
  | unary op x => exact Or.inr ⟨'(', _, by simp [text]; rfl, Or.inl rfl⟩
  | chain first rest => exact Or.inr ⟨'(', _, by simp [text]; rfl, Or.inl rfl⟩
  | group first rest => exact absurd hx not_canonical_group
  | call name args span =>
    obtain ⟨c, rest, hname, hc, -⟩ := exists_of_isIdentifier (canonical_call.mp hx).1
    exact Or.inr ⟨c, _, by simp [text, hname]; rfl, Or.inr hc⟩

/-- The first character of a number, and where its digits end. -/
theorem text_int_begins (w : Word) :
    (∃ c rest, (Operand.int w).text.toList = c :: rest ∧ c.isDigit = true ∧
      rest.all Char.isDigit = true) ∨
    ∃ rest, (Operand.int w).text.toList = '-' :: rest ∧ rest.all Char.isDigit = true := by
  by_cases hw : 0 ≤ w.toInt
  · left
    obtain ⟨c, rest, hcons, hc⟩ := exists_toDigits w.toInt.toNat
    have hall := all_toDigits w.toInt.toNat
    rw [hcons, List.all_cons, Bool.and_eq_true] at hall
    exact ⟨c, rest, by rw [text, Word.toList_text_of_nonneg hw, hcons], hall⟩
  · right
    exact ⟨_, Word.toList_text_of_neg (Int.not_le.mp hw), all_toDigits _⟩

/-- A minus sign in front of an operand is an operator. -/
theorem kindWithin_minus (hx : x.Canonical) :
    kindWithin ('-' :: (x.text.toList ++ ')' :: r)) = .unary := by
  have hstops : Stops Char.isDigit (')' :: r) := stops_cons (by decide)
  have hhead : ((x.text.toList ++ ')' :: r).dropWhile Char.isDigit).head? ≠ some ' ' := by
    obtain ⟨w, rfl⟩ | ⟨c, rest, htext, hc⟩ := text_begins hx
    · obtain ⟨c, rest, htext, hc, hrest⟩ | ⟨rest, htext, hrest⟩ := text_int_begins w
      · simp [htext, hc, dropWhile_of_stops hrest hstops]
      · simp [htext]
    · have hdigit : c.isDigit = false := by
        obtain rfl | hstart := hc
        · decide
        · exact isDigit_of_isNameStart hstart
      have hblank : c ≠ ' ' := by
        obtain rfl | hstart := hc
        · decide
        · exact ne_of_class hstart (by decide)
      simp [htext, hdigit, hblank]
  simp [kindWithin, hhead]

/-- The first operand of a chain is no operator. -/
theorem kindWithin_first (hx : x.Canonical) :
    kindWithin (x.text.toList ++ ' ' :: r) = .chain := by
  have hstops : Stops Char.isDigit (' ' :: r) := stops_cons (by decide)
  obtain ⟨w, rfl⟩ | ⟨c, rest, htext, hc⟩ := text_begins hx
  · obtain ⟨c, rest, htext, hc, -⟩ | ⟨rest, htext, hrest⟩ := text_int_begins w
    · have hne : ∀ d, d.isDigit = false → c ≠ d := fun d hd => ne_of_class hc hd
      simp [htext, kindWithin, hne]
    · simp [htext, kindWithin, dropWhile_of_stops hrest hstops]
  · obtain rfl | hstart := hc
    · simp [htext, kindWithin]
    · have hminus : c ≠ '-' := ne_of_class hstart (by decide)
      have hplus : c ≠ '+' := ne_of_class hstart (by decide)
      have hnot : c ≠ '!' := ne_of_class hstart (by decide)
      have hbitNot : c ≠ '~' := ne_of_class hstart (by decide)
      simp [htext, kindWithin, hminus, hplus, hnot, hbitNot]

/-- The constructor shows at the beginning of the text. -/
theorem kindAt_text (hx : x.Canonical) (hr : Delimited r) :
    kindAt (x.text.toList ++ r) = x.kind := by
  cases x with
  | int w =>
    obtain ⟨c, rest, htext, hc, -⟩ | ⟨rest, htext, -⟩ := text_int_begins w
    · have hopen : c ≠ '(' := ne_of_class hc (by decide)
      simp [htext, kindAt, hopen, hc, kind]
    · simp [htext, kindAt, kind]
  | var name span =>
    obtain ⟨c, rest, hname, hc, hrest⟩ := exists_of_isIdentifier (canonical_var.mp hx)
    have hopen : c ≠ '(' := ne_of_class hc (by decide)
    have hminus : c ≠ '-' := ne_of_class hc (by decide)
    simp [text, hname, kindAt, hopen, hminus, isDigit_of_isNameStart hc,
      dropWhile_of_stops hrest hr.stops_name, hr.head?_ne, kind]
  | unary op x =>
    have hminus := kindWithin_minus (r := r) (canonical_unary.mp hx)
    cases op <;> simp_all [text, UnaryOperator.symbol, kindAt, kindWithin, kind]
  | chain first rest =>
    obtain ⟨hne, hfirst, -⟩ := canonical_chain.mp hx
    obtain ⟨⟨op, x⟩, rest, rfl⟩ := List.exists_cons_of_ne_nil hne
    simpa [text, Links.text, kindAt, kind] using kindWithin_first hfirst
  | group first rest => exact absurd hx not_canonical_group
  | call name args span =>
    obtain ⟨c, rest, hname, hc, hrest⟩ := exists_of_isIdentifier (canonical_call.mp hx).1
    have hopen : c ≠ '(' := ne_of_class hc (by decide)
    have hminus : c ≠ '-' := ne_of_class hc (by decide)
    have hstops : ∀ cs, Stops isNameChar ('(' :: cs) := fun cs => stops_cons (by decide)
    simp [text, hname, kindAt, hopen, hminus, isDigit_of_isNameStart hc,
      dropWhile_of_stops hrest (hstops _), kind]

theorem kind_eq_of_text (hx : x.Canonical) (hy : y.Canonical) (hr : Delimited r) (hs : Delimited s)
    (h : x.text.toList ++ r = y.text.toList ++ s) : x.kind = y.kind := by
  rw [← kindAt_text hx hr, h, kindAt_text hy hs]

theorem text_starts (hx : x.Canonical) :
    ∃ c rest, x.text.toList = c :: rest ∧ (c = '(' ∨ c = '-' ∨ isNameChar c = true) := by
  obtain ⟨w, rfl⟩ | ⟨c, rest, htext, hc⟩ := text_begins hx
  · obtain ⟨c, rest, htext, hc, -⟩ | ⟨rest, htext, -⟩ := text_int_begins w
    · exact ⟨c, rest, htext, Or.inr (Or.inr (isNameChar_of_digit hc))⟩
    · exact ⟨'-', rest, htext, Or.inr (Or.inl rfl)⟩
  · exact ⟨c, rest, htext, hc.imp_right fun hstart => Or.inr (isNameChar_of_start hstart)⟩

/-- No operand begins with a closing parenthesis. -/
theorem text_ne_close (hx : x.Canonical) : x.text.toList ++ r ≠ ')' :: s := by
  obtain ⟨c, rest, htext, rfl | rfl | hc⟩ := text_starts hx
  · simp [htext]
  · simp [htext]
  · simp [htext, ne_of_class hc (by decide : isNameChar ')' = false)]

end Operand

theorem UnaryOperator.symbol_append_inj {op op' : UnaryOperator} {r s : List Char}
    (h : op.symbol.toList ++ r = op'.symbol.toList ++ s) : op = op' ∧ r = s := by
  cases op <;> cases op' <;> simp_all [symbol]

/-- The symbol of an operator ends at the blank behind it. -/
theorem BinaryOperator.symbol_append_inj {op op' : BinaryOperator} {r s : List Char}
    (h : op.symbol.toList ++ ' ' :: r = op'.symbol.toList ++ ' ' :: s) : op = op' ∧ r = s := by
  have hall : ∀ op : BinaryOperator, op.symbol.toList.all (· != ' ') = true := by
    intro op
    cases op <;> decide
  obtain ⟨hsymbol, hrest⟩ :=
    append_inj_of_stops (hall op) (hall op') (stops_cons (by decide)) (stops_cons (by decide)) h
  have hop := ofSymbol?_symbol op
  rw [String.toList_inj.mp hsymbol, ofSymbol?_symbol op'] at hop
  exact ⟨(Option.some.inj hop).symm, (List.cons.inj hrest).2⟩

def continued (texts : List String) : List Char := texts.flatMap fun t => ',' :: ' ' :: t.toList

section Equations

variable (r : List Char)

theorem Operand.unary_append (op : UnaryOperator) (x : Operand) :
    (Operand.unary op x).text.toList ++ r =
      '(' :: (op.symbol.toList ++ (x.text.toList ++ ')' :: r)) := by
  simp [text]

theorem Operand.chain_append (first : Operand) (rest : Links) :
    (Operand.chain first rest).text.toList ++ r =
      '(' :: (first.text.toList ++ ((Links.text rest).toList ++ ')' :: r)) := by
  simp [text]

theorem Operand.call_append (name : String) (args : List Operand) (span : Span) :
    (Operand.call name args span).text.toList ++ r =
      name.toList ++ '(' :: ((", ".intercalate (texts args)).toList ++ ')' :: r) := by
  simp [text]

theorem Links.nil_append : (Links.text []).toList ++ r = r := by simp [text]

theorem Links.cons_append (op : BinaryOperator) (x : Operand) (rest : Links) :
    (Links.text ((op, x) :: rest)).toList ++ r =
      ' ' :: (op.symbol.toList ++ ' ' :: (x.text.toList ++ ((Links.text rest).toList ++ r))) := by
  simp [text]

theorem continued_cons_append (t : String) (texts : List String) :
    continued (t :: texts) ++ r = ',' :: ' ' :: (t.toList ++ (continued texts ++ r)) := by
  simp [continued]

theorem intercalate_cons_append (t : String) (texts : List String) :
    (", ".intercalate (t :: texts)).toList ++ r = t.toList ++ (continued texts ++ r) := by
  induction texts generalizing t with
  | nil => simp [continued]
  | cons t' texts ih =>
    rw [String.intercalate_cons_cons, String.toList_append, String.toList_append, List.append_assoc,
      ih, continued_cons_append]
    simp

theorem delimited_continued (texts : List String) : Delimited (continued texts ++ ')' :: r) := by
  cases texts with
  | nil => exact delimited_cons (by simp)
  | cons t texts =>
    rw [continued_cons_append]
    exact delimited_cons (by simp)

theorem delimited_links (rest : Links) : Delimited ((Links.text rest).toList ++ ')' :: r) := by
  cases rest with
  | nil =>
    rw [Links.nil_append]
    exact delimited_cons (by simp)
  | cons l rest =>
    rw [Links.cons_append]
    exact delimited_cons (by simp)

end Equations

mutual
theorem Operand.text_append_inj : (x y : Operand) → x.Canonical → y.Canonical →
    {r s : List Char} → Delimited r → Delimited s → x.text.toList ++ r = y.text.toList ++ s →
    x.relabel .refl = y.relabel .refl ∧ r = s
  | .int v, y, hx, hy, r, s, hr, hs, h => by
    have hkind := Operand.kind_eq_of_text hx hy hr hs h
    cases y with
    | int w =>
      obtain ⟨rfl, hrest⟩ := Word.text_append_inj hr.stops_digit hs.stops_digit h
      exact ⟨rfl, hrest⟩
    | _ => cases hkind
  | .var m span, y, hx, hy, r, s, hr, hs, h => by
    have hkind := Operand.kind_eq_of_text hx hy hr hs h
    cases y with
    | var n span' =>
      obtain ⟨rfl, hrest⟩ := name_append_inj (Operand.canonical_var.mp hx)
        (Operand.canonical_var.mp hy) hr.stops_name hs.stops_name h
      exact ⟨rfl, hrest⟩
    | _ => cases hkind
  | .unary op x, y, hx, hy, r, s, hr, hs, h => by
    have hkind := Operand.kind_eq_of_text hx hy hr hs h
    cases y with
    | unary op' y =>
      rw [Operand.unary_append, Operand.unary_append] at h
      obtain ⟨hop, hinner⟩ := UnaryOperator.symbol_append_inj (List.cons.inj h).2
      obtain ⟨hxy, hrest⟩ := x.text_append_inj y (Operand.canonical_unary.mp hx)
        (Operand.canonical_unary.mp hy) (delimited_cons (by simp)) (delimited_cons (by simp)) hinner
      exact ⟨by rw [Operand.relabel, Operand.relabel, hop, hxy], (List.cons.inj hrest).2⟩
    | _ => cases hkind
  | .chain first rest, y, hx, hy, r, s, hr, hs, h => by
    have hkind := Operand.kind_eq_of_text hx hy hr hs h
    cases y with
    | chain first' rest' =>
      obtain ⟨-, hfirst, hlinks⟩ := Operand.canonical_chain.mp hx
      obtain ⟨-, hfirst', hlinks'⟩ := Operand.canonical_chain.mp hy
      rw [Operand.chain_append, Operand.chain_append] at h
      obtain ⟨hxy, hinner⟩ := first.text_append_inj first' hfirst hfirst' (delimited_links r rest)
        (delimited_links s rest') (List.cons.inj h).2
      obtain ⟨hrests, hrest⟩ := Links.text_append_inj rest rest' hlinks hlinks' hinner
      exact ⟨by rw [Operand.relabel, Operand.relabel, hxy, hrests], hrest⟩
    | _ => cases hkind
  | .group _ _, _, hx, _, _, _, _, _, _ => absurd hx Operand.not_canonical_group
  | .call m args span, y, hx, hy, r, s, hr, hs, h => by
    have hkind := Operand.kind_eq_of_text hx hy hr hs h
    cases y with
    | call n args' span' =>
      obtain ⟨hm, hargs⟩ := Operand.canonical_call.mp hx
      obtain ⟨hn, hargs'⟩ := Operand.canonical_call.mp hy
      rw [Operand.call_append, Operand.call_append] at h
      obtain ⟨hname, hinner⟩ := name_append_inj hm hn (stops_cons (by decide))
        (stops_cons (by decide)) h
      obtain ⟨hall, hrest⟩ :=
        Operand.args_append_inj args args' hargs hargs' (List.cons.inj hinner).2
      exact ⟨by rw [Operand.relabel, Operand.relabel, hname, hall], hrest⟩
    | _ => cases hkind
theorem Links.text_append_inj : (a b : Links) → Links.Canonical a → Links.Canonical b →
    {r s : List Char} →
    (Links.text a).toList ++ ')' :: r = (Links.text b).toList ++ ')' :: s →
    Links.relabel .refl a = Links.relabel .refl b ∧ r = s
  | [], [], _, _, r, s, h => by simpa [Links.text] using h
  | [], (op, x) :: rest, _, _, r, s, h => by simp [Links.text] at h
  | (op, x) :: rest, [], _, _, r, s, h => by simp [Links.text] at h
  | (op, x) :: rest, (op', y) :: rest', ha, hb, r, s, h => by
    obtain ⟨hx, hrest⟩ := Links.canonical_cons.mp ha
    obtain ⟨hy, hrest'⟩ := Links.canonical_cons.mp hb
    rw [Links.cons_append, Links.cons_append] at h
    obtain ⟨hop, hoperand⟩ := BinaryOperator.symbol_append_inj (List.cons.inj h).2
    obtain ⟨hxy, htail⟩ := x.text_append_inj y hx hy (delimited_links r rest)
      (delimited_links s rest') hoperand
    obtain ⟨hlinks, heq⟩ := Links.text_append_inj rest rest' hrest hrest' htail
    exact ⟨by rw [Links.relabel, Links.relabel, hop, hxy, hlinks], heq⟩
theorem Operand.args_append_inj : (xs ys : List Operand) → Operand.AllCanonical xs →
    Operand.AllCanonical ys → {r s : List Char} →
    (", ".intercalate (Operand.texts xs)).toList ++ ')' :: r =
      (", ".intercalate (Operand.texts ys)).toList ++ ')' :: s →
    Operand.relabelAll .refl xs = Operand.relabelAll .refl ys ∧ r = s
  | [], [], _, _, r, s, h => by simpa [Operand.texts] using h
  | [], y :: ys, _, hys, r, s, h => by
    rw [Operand.texts, Operand.texts, intercalate_cons_append] at h
    exact absurd h.symm (Operand.text_ne_close (Operand.allCanonical_cons.mp hys).1)
  | x :: xs, [], hxs, _, r, s, h => by
    rw [Operand.texts, Operand.texts, intercalate_cons_append] at h
    exact absurd h (Operand.text_ne_close (Operand.allCanonical_cons.mp hxs).1)
  | x :: xs, y :: ys, hxs, hys, r, s, h => by
    obtain ⟨hx, hrest⟩ := Operand.allCanonical_cons.mp hxs
    obtain ⟨hy, hrest'⟩ := Operand.allCanonical_cons.mp hys
    rw [Operand.texts, Operand.texts, intercalate_cons_append, intercalate_cons_append] at h
    obtain ⟨hxy, htail⟩ := x.text_append_inj y hx hy (delimited_continued r _)
      (delimited_continued s _) h
    obtain ⟨hall, heq⟩ := Operand.texts_append_inj xs ys hrest hrest' htail
    exact ⟨by rw [Operand.relabelAll, Operand.relabelAll, hxy, hall], heq⟩
theorem Operand.texts_append_inj : (xs ys : List Operand) → Operand.AllCanonical xs →
    Operand.AllCanonical ys → {r s : List Char} →
    continued (Operand.texts xs) ++ ')' :: r = continued (Operand.texts ys) ++ ')' :: s →
    Operand.relabelAll .refl xs = Operand.relabelAll .refl ys ∧ r = s
  | [], [], _, _, r, s, h => by simpa [Operand.texts, continued] using h
  | [], y :: ys, _, _, r, s, h => by simp [Operand.texts, continued] at h
  | x :: xs, [], _, _, r, s, h => by simp [Operand.texts, continued] at h
  | x :: xs, y :: ys, hxs, hys, r, s, h => by
    obtain ⟨hx, hrest⟩ := Operand.allCanonical_cons.mp hxs
    obtain ⟨hy, hrest'⟩ := Operand.allCanonical_cons.mp hys
    rw [Operand.texts, Operand.texts, continued_cons_append, continued_cons_append] at h
    obtain ⟨hxy, htail⟩ := x.text_append_inj y hx hy (delimited_continued r _)
      (delimited_continued s _) (List.cons.inj (List.cons.inj h).2).2
    obtain ⟨hall, heq⟩ := Operand.texts_append_inj xs ys hrest hrest' htail
    exact ⟨by rw [Operand.relabelAll, Operand.relabelAll, hxy, hall], heq⟩
end

/-- The character behind two operands of one text is the same if it ends an operand. -/
theorem Operand.text_cons_inj {x y : Operand} {c : Char} {r s : List Char} (hx : x.Canonical)
    (hy : y.Canonical) (hc : c ∈ [')', ',', ' ', ';'])
    (h : x.text.toList ++ c :: r = y.text.toList ++ c :: s) :
    x.relabel .refl = y.relabel .refl ∧ r = s := by
  obtain ⟨hxy, hrest⟩ := x.text_append_inj y hx hy (delimited_cons hc) (delimited_cons hc) h
  exact ⟨hxy, (List.cons.inj hrest).2⟩

theorem binding_append_inj {m n : String} {x y : Operand} {r s : List Char}
    (hm : isIdentifier m = true) (hn : isIdentifier n = true) (hx : x.Canonical) (hy : y.Canonical)
    (h : m.toList ++ ' ' :: '=' :: ' ' :: (x.text.toList ++ ';' :: r) =
      n.toList ++ ' ' :: '=' :: ' ' :: (y.text.toList ++ ';' :: s)) :
    m = n ∧ x.relabel .refl = y.relabel .refl ∧ r = s := by
  obtain ⟨hname, hvalue⟩ :=
    name_append_inj hm hn (stops_cons (by decide)) (stops_cons (by decide)) h
  simp only [List.cons.injEq, true_and] at hvalue
  exact ⟨hname, Operand.text_cons_inj hx hy (by simp) hvalue⟩

section Params

variable {ms ns : List String} {r s : List Char}

def Operand.vars (names : List String) : List Operand := names.map (.var · {})

theorem Operand.texts_vars (names : List String) : texts (vars names) = names := by
  induction names with
  | nil => rfl
  | cons name names ih => rw [vars, List.map_cons, texts, text, ← vars, ih]

theorem Operand.relabelAll_vars (names : List String) :
    relabelAll .refl (vars names) = vars names := by
  induction names with
  | nil => rfl
  | cons name names ih =>
    rw [vars, List.map_cons, relabelAll, relabel, ← vars, ih]
    rfl

theorem Operand.allCanonical_vars {names : List String} (h : Spelled names) :
    AllCanonical (vars names) := by
  induction names with
  | nil => exact ⟨rfl, spelled_nil⟩
  | cons name names ih =>
    obtain ⟨hname, hnames⟩ := spelled_cons.mp h
    exact allCanonical_cons.mpr ⟨canonical_var.mpr hname, ih hnames⟩

theorem params_append_inj (hm : Spelled ms) (hn : Spelled ns)
    (h : (", ".intercalate ms).toList ++ ')' :: r = (", ".intercalate ns).toList ++ ')' :: s) :
    ms = ns ∧ r = s := by
  rw [← Operand.texts_vars ms, ← Operand.texts_vars ns] at h
  obtain ⟨hvars, hrest⟩ := Operand.args_append_inj _ _ (Operand.allCanonical_vars hm)
    (Operand.allCanonical_vars hn) h
  rw [Operand.relabelAll_vars, Operand.relabelAll_vars] at hvars
  have hinj : Function.Injective (Operand.var · {}) := fun m n heq => (Operand.var.inj heq).1
  exact ⟨hinj.list_map hvars, hrest⟩

end Params

end Wordcode
