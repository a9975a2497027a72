import Wordcode.Tree.Basic

/-!
The lexemes of texts: runs of characters of one class, names and numbers. A lexeme that cannot go on
with the next character is told from all others by what it is followed by.
-/

namespace Wordcode

section Runs

variable {α : Type} {p : α → Bool} {xs ys r s : List α}

def Stops (p : α → Bool) (r : List α) : Prop := ∀ c ∈ r.head?, p c = false

theorem stops_cons {c : α} (hc : p c = false) : Stops p (c :: r) := by
  simpa [Stops] using hc

/-- A run of one class ends where the class does. -/
theorem append_inj_of_stops (hx : xs.all p = true) (hy : ys.all p = true) (hr : Stops p r)
    (hs : Stops p s) (h : xs ++ r = ys ++ s) : xs = ys ∧ r = s := by
  induction xs generalizing ys with
  | nil =>
    cases ys with
    | nil => simpa using h
    | cons y ys =>
      subst h
      simp_all [Stops]
  | cons x xs ih =>
    cases ys with
    | nil =>
      simp only [List.nil_append] at h
      subst h
      simp_all [Stops]
    | cons y ys =>
      simp only [List.cons_append, List.cons.injEq] at h
      simp only [List.all_cons, Bool.and_eq_true] at hx hy
      obtain ⟨hrest, hr⟩ := ih hx.2 hy.2 h.2
      exact ⟨by rw [h.1, hrest], hr⟩

theorem notMem_of_all {c : α} (hp : p c = false) (h : xs.all p = true) : c ∉ xs := by
  intro hmem
  simp [List.all_eq_true.mp h c hmem] at hp

/-- Two texts that lead up to the first place of a character. -/
theorem append_inj_of_notMem [DecidableEq α] {c : α} (hx : c ∉ xs) (hy : c ∉ ys)
    (h : xs ++ c :: r = ys ++ c :: s) : xs = ys ∧ r = s := by
  have hall : ∀ xs : List α, c ∉ xs → xs.all (· != c) = true := by
    intro xs hxs
    simp only [List.all_eq_true, bne_iff_ne]
    exact fun d hd heq => hxs (heq ▸ hd)
  obtain ⟨hxy, hrest⟩ := append_inj_of_stops (hall xs hx) (hall ys hy) (stops_cons (by simp))
    (stops_cons (by simp)) h
  exact ⟨hxy, (List.cons.inj hrest).2⟩

theorem takeWhile_of_stops (hx : xs.all p = true) (hr : Stops p r) :
    (xs ++ r).takeWhile p = xs := by
  rw [List.takeWhile_append_of_pos (List.all_eq_true.mp hx)]
  cases r <;> simp_all [Stops]

theorem dropWhile_of_stops (hx : xs.all p = true) (hr : Stops p r) : (xs ++ r).dropWhile p = r := by
  rw [List.dropWhile_append_of_pos (List.all_eq_true.mp hx)]
  cases r <;> simp_all [Stops]

end Runs

section Numbers

variable {m n : Nat} {v w : Word} {r s : List Char}

theorem all_toDigits (n : Nat) : (Nat.toDigits 10 n).all Char.isDigit = true := by
  simp only [List.all_eq_true]
  exact fun c hc => Nat.isDigit_of_mem_toDigits (by decide) (by decide) hc

theorem toDigits_inj (h : Nat.toDigits 10 m = Nat.toDigits 10 n) : m = n := by
  rw [← Nat.ofDigitChars_ten_toDigits (n := m), h, Nat.ofDigitChars_ten_toDigits]

theorem exists_toDigits (n : Nat) : ∃ c cs, Nat.toDigits 10 n = c :: cs ∧ c.isDigit = true := by
  obtain ⟨c, cs, hcons⟩ := List.exists_cons_of_ne_nil (Nat.toDigits_ne_nil (n := n) (b := 10))
  refine ⟨c, cs, hcons, ?_⟩
  have hall := all_toDigits n
  rw [hcons, List.all_cons, Bool.and_eq_true] at hall
  exact hall.1

theorem toDigits_append_inj (hr : Stops Char.isDigit r) (hs : Stops Char.isDigit s)
    (h : Nat.toDigits 10 m ++ r = Nat.toDigits 10 n ++ s) : m = n ∧ r = s := by
  obtain ⟨hdigits, hrest⟩ := append_inj_of_stops (all_toDigits m) (all_toDigits n) hr hs h
  exact ⟨toDigits_inj hdigits, hrest⟩

namespace Word

theorem toList_text_of_nonneg (hw : 0 ≤ w.toInt) :
    w.text.toList = Nat.toDigits 10 w.toInt.toNat := by
  simp [text, Int.toString_eq_repr, Int.repr_eq_if, hw]

theorem toList_text_of_neg (hw : w.toInt < 0) :
    w.text.toList = '-' :: Nat.toDigits 10 (-w.toInt).toNat := by
  simp [text, Int.toString_eq_repr, Int.repr_eq_if, Int.not_le.mpr hw]

/-- The digits of a negative number come after a character that is no digit. -/
theorem text_nonneg_ne_neg (hv : 0 ≤ v.toInt) (hw : w.toInt < 0) :
    v.text.toList ++ r ≠ w.text.toList ++ s := by
  obtain ⟨c, cs, hcs, hc⟩ := exists_toDigits v.toInt.toNat
  rw [toList_text_of_nonneg hv, toList_text_of_neg hw, hcs]
  intro h
  obtain ⟨rfl, -⟩ := List.cons.inj h
  simp at hc

theorem text_append_inj (hr : Stops Char.isDigit r) (hs : Stops Char.isDigit s)
    (h : v.text.toList ++ r = w.text.toList ++ s) : v = w ∧ r = s := by
  by_cases hv : 0 ≤ v.toInt
  · by_cases hw : 0 ≤ w.toInt
    · rw [toList_text_of_nonneg hv, toList_text_of_nonneg hw] at h
      obtain ⟨habs, hrest⟩ := toDigits_append_inj hr hs h
      exact ⟨Int64.toInt_inj.mp (by omega), hrest⟩
    · exact absurd h (text_nonneg_ne_neg hv (Int.not_le.mp hw))
  · by_cases hw : 0 ≤ w.toInt
    · exact absurd h.symm (text_nonneg_ne_neg hw (Int.not_le.mp hv))
    · rw [toList_text_of_neg (Int.not_le.mp hv), toList_text_of_neg (Int.not_le.mp hw)] at h
      obtain ⟨habs, hrest⟩ := toDigits_append_inj hr hs (List.cons.inj h).2
      exact ⟨Int64.toInt_inj.mp (by omega), hrest⟩

theorem text_inj (h : v.text = w.text) : v = w :=
  (text_append_inj (r := []) (s := []) (by simp [Stops]) (by simp [Stops]) (by rw [h])).1

end Word

end Numbers

section Names

variable {m n : String} {r s : List Char}

def isNameStart (c : Char) : Bool := c.isAlpha || c == '_'

def isNameChar (c : Char) : Bool := c.isAlphanum || c == '_'

def isIdentifier (name : String) : Bool :=
  match name.toList with
  | [] => false
  | c :: rest => isNameStart c && rest.all isNameChar

theorem isNameChar_of_start {c : Char} (h : isNameStart c = true) : isNameChar c = true := by
  simp only [isNameStart, isNameChar, Char.isAlphanum, Bool.or_eq_true] at h ⊢
  exact h.imp_left Or.inl

theorem isNameChar_of_digit {c : Char} (h : c.isDigit = true) : isNameChar c = true := by
  simp [isNameChar, Char.isAlphanum, h]

/-- A character of a class is none that is not. -/
theorem ne_of_class {p : Char → Bool} {c d : Char} (hc : p c = true) (hd : p d = false) :
    c ≠ d := by
  rintro rfl
  simp [hc] at hd

theorem isAlpha_range {c : Char} (h : c.isAlpha = true) :
    65 ≤ c.toNat ∧ c.toNat ≤ 90 ∨ 97 ≤ c.toNat ∧ c.toNat ≤ 122 := by
  have hletter : (decide (65 ≤ c.toNat ∧ c.toNat ≤ 90) ||
      (decide (97 ≤ c.toNat) && decide (c.toNat ≤ 122))) = true := h
  simpa using hletter

theorem isDigit_range {c : Char} (h : c.isDigit = true) : 48 ≤ c.toNat ∧ c.toNat ≤ 57 := by
  have hdigit : (decide (48 ≤ c.toNat) && decide (c.toNat ≤ 57)) = true := h
  simpa using hdigit

theorem isDigit_of_isNameStart {c : Char} (h : isNameStart c = true) : c.isDigit = false := by
  simp only [isNameStart, Bool.or_eq_true, beq_iff_eq] at h
  obtain halpha | rfl := h
  · refine Bool.eq_false_iff.mpr fun hdigit => ?_
    have hletter := isAlpha_range halpha
    have hdigit := isDigit_range hdigit
    omega
  · decide

theorem exists_of_isIdentifier (h : isIdentifier n = true) :
    ∃ c rest, n.toList = c :: rest ∧ isNameStart c = true ∧ rest.all isNameChar = true := by
  unfold isIdentifier at h
  split at h
  next => simp at h
  next c rest hcons => exact ⟨c, rest, hcons, by simpa using h⟩

theorem all_of_isIdentifier (h : isIdentifier n = true) : n.toList.all isNameChar = true := by
  obtain ⟨c, rest, hcons, hstart, hrest⟩ := exists_of_isIdentifier h
  simp [hcons, isNameChar_of_start hstart, hrest]

theorem name_append_inj (hm : isIdentifier m = true) (hn : isIdentifier n = true)
    (hr : Stops isNameChar r) (hs : Stops isNameChar s) (h : m.toList ++ r = n.toList ++ s) :
    m = n ∧ r = s := by
  obtain ⟨hname, hrest⟩ :=
    append_inj_of_stops (all_of_isIdentifier hm) (all_of_isIdentifier hn) hr hs h
  exact ⟨String.toList_inj.mp hname, hrest⟩

def Spelled (names : List String) : Prop := ∀ name ∈ names, isIdentifier name = true

@[simp] theorem spelled_nil : Spelled [] := by simp [Spelled]

@[simp] theorem spelled_cons {name : String} {names : List String} :
    Spelled (name :: names) ↔ isIdentifier name = true ∧ Spelled names := by
  simp [Spelled]

@[simp] theorem spelled_append {names names' : List String} :
    Spelled (names ++ names') ↔ Spelled names ∧ Spelled names' := by
  simp [Spelled, or_imp, forall_and]

end Names

section Mentions

mutual
def Operand.mentions : Operand → List String
  | .int _ => []
  | .var name _ => [name]
  | .unary _ x => x.mentions
  | .chain first rest | .group first rest => first.mentions ++ Links.mentions rest
  | .call name args _ => name :: Operand.mentionsAll args
def Links.mentions : Links → List String
  | [] => []
  | (_, x) :: rest => x.mentions ++ Links.mentions rest
def Operand.mentionsAll : List Operand → List String
  | [] => []
  | x :: rest => x.mentions ++ Operand.mentionsAll rest
end

mutual
def Statement.mentions : Statement → List String
  | .declare name x _ | .assign name x _ => name :: x.mentions
  | .cond test yes none _ => test.mentions ++ Block.mentions yes
  | .cond test yes (some no) _ => test.mentions ++ Block.mentions yes ++ Block.mentions no
  | .loop test body _ => test.mentions ++ Block.mentions body
  | .discard x _ | .ret x _ => x.mentions
def Block.mentions : Block → List String
  | [] => []
  | s :: rest => s.mentions ++ Block.mentions rest
end

def Function.mentions (f : Function) : List String := f.name :: f.params ++ Block.mentions f.body

def Program.mentions (p : Program) : List String :=
  p.functions.flatMap Function.mentions ++ Block.mentions p.main

end Mentions

end Wordcode
