import Wordcode.Proofs.NormalForm

/-!
Grouping that makes no difference. Main statement: operands have the same normal form exactly if
collapsing, applied anywhere inside of them, leads from one to the other.
-/

namespace Wordcode

/-- The least congruence that takes a chain without links for its first operand and a group for the
chain inside of it. -/
inductive Operand.Regrouped : Operand → Operand → Prop where
  | refl (x : Operand) : Regrouped x x
  | symm {x y : Operand} (h : Regrouped x y) : Regrouped y x
  | trans {x y z : Operand} (h : Regrouped x y) (h' : Regrouped y z) : Regrouped x z
  | trivial (x : Operand) : Regrouped (.chain x []) x
  | group (first : Operand) (rest : Links) : Regrouped (.group first rest) (.chain first rest)
  | unary {x y : Operand} (op : UnaryOperator) (h : Regrouped x y) :
      Regrouped (.unary op x) (.unary op y)
  | first {x y : Operand} (rest : Links) (h : Regrouped x y) :
      Regrouped (.chain x rest) (.chain y rest)
  | link {x y : Operand} (first : Operand) (before : Links) (op : BinaryOperator) (after : Links)
      (h : Regrouped x y) :
      Regrouped (.chain first (before ++ (op, x) :: after))
        (.chain first (before ++ (op, y) :: after))
  | arg {x y : Operand} (name : String) (before after : List Operand) (span : Span)
      (h : Regrouped x y) :
      Regrouped (.call name (before ++ x :: after) span) (.call name (before ++ y :: after) span)

open Operand (Regrouped)

theorem regrouped_link (first : Operand) (rest : Links) :
    Regrouped (.chain first rest) (first.link rest) := by
  cases rest with
  | nil => exact .trivial first
  | cons l rest => exact .refl _

-- Links and arguments are brought into normal form from left to right, behind those already done.
mutual
theorem Operand.regrouped_plain : (x : Operand) → Regrouped x x.plain
  | .int _ => .refl _
  | .var _ _ => .refl _
  | .unary op x => .unary op x.regrouped_plain
  | .chain first rest =>
    ((Regrouped.first rest first.regrouped_plain).trans
      (Links.regrouped_plain rest first.plain [])).trans (regrouped_link _ _)
  | .group first rest =>
    (((Regrouped.group first rest).trans (.first rest first.regrouped_plain)).trans
      (Links.regrouped_plain rest first.plain [])).trans (regrouped_link _ _)
  | .call name args span => Operand.regrouped_plainAll args name [] span
theorem Links.regrouped_plain : (rest : Links) → (first : Operand) → (before : Links) →
    Regrouped (.chain first (before ++ rest)) (.chain first (before ++ Links.plain rest))
  | [], first, before => .refl _
  | (op, x) :: rest, first, before => by
    have hhead := Regrouped.link first before op rest x.regrouped_plain
    have htail := Links.regrouped_plain rest first (before ++ [(op, x.plain)])
    rw [List.append_assoc, List.append_assoc] at htail
    exact hhead.trans htail
theorem Operand.regrouped_plainAll : (xs : List Operand) → (name : String) →
    (before : List Operand) → (span : Span) →
    Regrouped (.call name (before ++ xs) span) (.call name (before ++ Operand.plainAll xs) span)
  | [], name, before, span => .refl _
  | x :: rest, name, before, span => by
    have hhead := Regrouped.arg name before rest span x.regrouped_plain
    have htail := Operand.regrouped_plainAll rest name (before ++ [x.plain]) span
    rw [List.append_assoc, List.append_assoc] at htail
    exact hhead.trans htail
end

theorem Links.plain_append (rest rest' : Links) :
    Links.plain (rest ++ rest') = Links.plain rest ++ Links.plain rest' := by
  induction rest with
  | nil => rfl
  | cons l rest ih =>
    rw [List.cons_append, Links.plain, ih]
    rfl

theorem Operand.plainAll_append (xs ys : List Operand) :
    Operand.plainAll (xs ++ ys) = Operand.plainAll xs ++ Operand.plainAll ys := by
  induction xs with
  | nil => rfl
  | cons x xs ih =>
    rw [List.cons_append, Operand.plainAll, ih]
    rfl

/-- Each rule keeps the normal form, wherever it is applied. -/
theorem Operand.Regrouped.plain_eq {x y : Operand} (h : Regrouped x y) : x.plain = y.plain := by
  induction h with
  | refl x => rfl
  | symm _ ih => exact ih.symm
  | trans _ _ ih ih' => exact ih.trans ih'
  | trivial x => rfl
  | group first rest => rfl
  | unary op _ ih => simp only [Operand.plain, ih]
  | first rest _ ih => simp only [Operand.plain, ih]
  | link first before op after _ ih =>
    simp only [Operand.plain, Links.plain_append, Links.plain, ih]
  | arg name before after span _ ih =>
    simp only [Operand.plain, Operand.plainAll_append, Operand.plainAll, ih]

/-- The normal form tells operands apart that differ in more than redundant grouping, and no
others. What normalizing does to an operand is itself no more than regrouping. -/
theorem Operand.normalize_eq_iff_regrouped (a b : Operand) :
    (a.normalize = b.normalize ↔ a.Regrouped b) ∧ a.Regrouped a.normalize := by
  simp only [normalize_eq_plain]
  refine ⟨⟨?_, Regrouped.plain_eq⟩, a.regrouped_plain⟩
  intro h
  have hb := b.regrouped_plain.symm
  rw [← h] at hb
  exact a.regrouped_plain.trans hb

end Wordcode
