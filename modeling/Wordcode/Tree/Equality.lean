import Wordcode.Tree.Basic

/-!
Structural equality of trees, spans included, decided by one comparison per node.
-/

namespace Wordcode

mutual
def Operand.same : Operand → Operand → Bool
  | .int v, .int w => v == w
  | .var n s, .var n' s' => n == n' && s == s'
  | .unary op x, .unary op' x' => op == op' && x.same x'
  | .chain f r, .chain f' r' => f.same f' && Links.same r r'
  | .group f r, .group f' r' => f.same f' && Links.same r r'
  | .call n a s, .call n' a' s' => n == n' && Operand.sameList a a' && s == s'
  | _, _ => false
def Links.same : Links → Links → Bool
  | [], [] => true
  | (op, x) :: r, (op', x') :: r' => op == op' && x.same x' && Links.same r r'
  | _, _ => false
def Operand.sameList : List Operand → List Operand → Bool
  | [], [] => true
  | x :: r, x' :: r' => x.same x' && Operand.sameList r r'
  | _, _ => false
end

mutual
theorem Operand.same_self : (x : Operand) → x.same x = true
  | .int _ => by simp [Operand.same]
  | .var _ _ => by simp [Operand.same]
  | .unary _ x => by simp [Operand.same, x.same_self]
  | .chain f r => by simp [Operand.same, f.same_self, Links.same_self r]
  | .group f r => by simp [Operand.same, f.same_self, Links.same_self r]
  | .call _ a _ => by simp [Operand.same, Operand.sameList_self a]
theorem Links.same_self : (r : Links) → Links.same r r = true
  | [] => by simp [Links.same]
  | (_, x) :: r => by simp [Links.same, x.same_self, Links.same_self r]
theorem Operand.sameList_self : (r : List Operand) → Operand.sameList r r = true
  | [] => by simp [Operand.sameList]
  | x :: r => by simp [Operand.sameList, x.same_self, Operand.sameList_self r]
end

mutual
theorem Operand.eq_of_same : (x y : Operand) → x.same y = true → x = y
  | .int _, y, h => by cases y <;> simp_all [Operand.same]
  | .var _ _, y, h => by cases y <;> simp_all [Operand.same]
  | .unary _ x, y, h => by
    cases y <;> simp_all [Operand.same]
    exact Operand.eq_of_same _ _ h.2
  | .chain f r, y, h => by
    cases y <;> simp_all [Operand.same]
    exact ⟨Operand.eq_of_same _ _ h.1, Links.eq_of_same _ _ h.2⟩
  | .group f r, y, h => by
    cases y <;> simp_all [Operand.same]
    exact ⟨Operand.eq_of_same _ _ h.1, Links.eq_of_same _ _ h.2⟩
  | .call _ a _, y, h => by
    cases y <;> simp_all [Operand.same]
    exact Operand.eq_of_sameList _ _ h.1.2
theorem Links.eq_of_same : (r s : Links) → Links.same r s = true → r = s
  | [], s, h => by cases s <;> simp_all [Links.same]
  | (op, x) :: r, s, h => by
    cases s with
    | nil => simp [Links.same] at h
    | cons l s =>
      simp [Links.same] at h
      rw [Operand.eq_of_same x l.2 h.1.2, Links.eq_of_same r s h.2, h.1.1]
theorem Operand.eq_of_sameList : (r s : List Operand) → Operand.sameList r s = true → r = s
  | [], s, h => by cases s <;> simp_all [Operand.sameList]
  | x :: r, s, h => by
    cases s with
    | nil => simp [Operand.sameList] at h
    | cons y s =>
      simp [Operand.sameList] at h
      rw [Operand.eq_of_same x y h.1, Operand.eq_of_sameList r s h.2]
end

instance : DecidableEq Operand := fun x y =>
  decidable_of_decidable_of_iff (p := x.same y = true)
    ⟨Operand.eq_of_same x y, fun h => h ▸ x.same_self⟩

mutual
def Statement.same : Statement → Statement → Bool
  | .declare n x s, .declare n' x' s' => n == n' && x == x' && s == s'
  | .assign n x s, .assign n' x' s' => n == n' && x == x' && s == s'
  | .cond t y none s, .cond t' y' none s' => t == t' && Block.same y y' && s == s'
  | .cond t y (some n) s, .cond t' y' (some n') s' =>
    t == t' && Block.same y y' && Block.same n n' && s == s'
  | .loop t b s, .loop t' b' s' => t == t' && Block.same b b' && s == s'
  | .discard x s, .discard x' s' => x == x' && s == s'
  | .ret x s, .ret x' s' => x == x' && s == s'
  | _, _ => false
def Block.same : Block → Block → Bool
  | [], [] => true
  | x :: r, x' :: r' => x.same x' && Block.same r r'
  | _, _ => false
end

mutual
theorem Statement.same_self : (x : Statement) → x.same x = true
  | .declare _ _ _ => by simp [Statement.same]
  | .assign _ _ _ => by simp [Statement.same]
  | .cond _ y none _ => by simp [Statement.same, Block.same_self y]
  | .cond _ y (some n) _ => by simp [Statement.same, Block.same_self y, Block.same_self n]
  | .loop _ b _ => by simp [Statement.same, Block.same_self b]
  | .discard _ _ => by simp [Statement.same]
  | .ret _ _ => by simp [Statement.same]
theorem Block.same_self : (b : Block) → Block.same b b = true
  | [] => by simp [Block.same]
  | x :: r => by simp [Block.same, x.same_self, Block.same_self r]
end

mutual
theorem Statement.eq_of_same : (x y : Statement) → x.same y = true → x = y
  | .declare _ _ _, y, h => by cases y <;> simp_all [Statement.same]
  | .assign _ _ _, y, h => by cases y <;> simp_all [Statement.same]
  | .cond t a none s, y, h => by
    cases y with
    | cond t' a' n' s' =>
      cases n' <;> simp [Statement.same] at h
      rw [h.1.1, h.2, Block.eq_of_same a a' h.1.2]
    | _ => simp [Statement.same] at h
  | .cond t a (some n) s, y, h => by
    cases y with
    | cond t' a' n' s' =>
      cases n' <;> simp [Statement.same] at h
      rw [h.1.1.1, h.2, Block.eq_of_same a a' h.1.1.2, Block.eq_of_same n _ h.1.2]
    | _ => simp [Statement.same] at h
  | .loop t b s, y, h => by
    cases y <;> simp_all [Statement.same]
    exact Block.eq_of_same _ _ h.1.2
  | .discard _ _, y, h => by cases y <;> simp_all [Statement.same]
  | .ret _ _, y, h => by cases y <;> simp_all [Statement.same]
theorem Block.eq_of_same : (b c : Block) → Block.same b c = true → b = c
  | [], c, h => by cases c <;> simp_all [Block.same]
  | x :: r, c, h => by
    cases c with
    | nil => simp [Block.same] at h
    | cons y s =>
      simp [Block.same] at h
      rw [Statement.eq_of_same x y h.1, Block.eq_of_same r s h.2]
end

instance : DecidableEq Statement := fun x y =>
  decidable_of_decidable_of_iff (p := x.same y = true)
    ⟨Statement.eq_of_same x y, fun h => h ▸ x.same_self⟩

deriving instance DecidableEq for Chain, Function, Program

end Wordcode
