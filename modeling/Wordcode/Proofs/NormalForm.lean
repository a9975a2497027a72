import Wordcode.Compile.Lowering
import Wordcode.Tree.NormalForm

/-!
The normal form of a tree, told by recursion on the tree. Main statements: the collapsing pass
arrives at it, and it is lowered to the same code as the tree.
-/

namespace Wordcode

def Operand.link (first : Operand) : Links → Operand
  | [] => first
  | l :: rest => .chain first (l :: rest)

mutual
def Operand.plain : Operand → Operand
  | .int value => .int value
  | .var name span => .var name span
  | .unary op x => .unary op x.plain
  | .chain first rest => first.plain.link (Links.plain rest)
  | .group first rest => first.plain.link (Links.plain rest)
  | .call name args span => .call name (Operand.plainAll args) span
def Links.plain : Links → Links
  | [] => []
  | (op, x) :: rest => (op, x.plain) :: Links.plain rest
def Operand.plainAll : List Operand → List Operand
  | [] => []
  | x :: rest => x.plain :: Operand.plainAll rest
end

mutual
def Statement.plain : Statement → Statement
  | .declare name x span => .declare name x.plain span
  | .assign name x span => .assign name x.plain span
  | .cond test yes none span => .cond test.plain (Block.plain yes) none span
  | .cond test yes (some no) span =>
    .cond test.plain (Block.plain yes) (some (Block.plain no)) span
  | .loop test body span => .loop test.plain (Block.plain body) span
  | .discard x span => .discard x.plain span
  | .ret x span => .ret x.plain span
def Block.plain : Block → Block
  | [] => []
  | s :: rest => s.plain :: Block.plain rest
end

def Function.plain (f : Function) : Function := { f with body := Block.plain f.body }

def Program.plain (p : Program) : Program :=
  { functions := p.functions.map Function.plain, main := Block.plain p.main }

def Yields {α : Type} (x : StateM Nat α) (a : α) : Prop := ∀ n, (x.run n).1 = a

section Yields

variable {α β : Type} {a : α} {b : β}

theorem yields_pure (a : α) : Yields (pure a) a := fun _ => rfl

theorem Yields.bind {x : StateM Nat α} {k : α → StateM Nat β} (hx : Yields x a)
    (hk : Yields (k a) b) : Yields (x >>= k) b := by
  intro n
  rw [← hk (x.run n).2, ← hx n]
  rfl

theorem Yields.map {x : StateM Nat α} (f : α → β) (hx : Yields x a) :
    Yields (x >>= fun a => pure (f a)) (f a) := hx.bind (yields_pure (f a))

end Yields

theorem yields_chain {x : StateM Nat Operand} {y : StateM Nat Links} {first : Operand}
    {rest : Links} (hx : Yields x first) (hy : Yields y rest) :
    Yields (do let first ← x; let rest ← y; return Chain.mk first rest) ⟨first, rest⟩ :=
  hx.bind (hy.map (Chain.mk first))

theorem collapse_yields_chain (first : Operand) (rest : Links) :
    Yields (Operand.collapse (.chain first rest)) (first.link rest) := by
  cases rest <;> exact fun _ => rfl

theorem collapse_yields_group (first : Operand) (rest : Links) :
    Yields (Operand.collapse (.group first rest)) (first.link rest) := by
  cases rest <;> exact fun _ => rfl

mutual
theorem Operand.collapsing_yields : (x : Operand) → Yields (collapsing.transformOperand x) x.plain
  | .int value => (yields_pure _).bind (yields_pure _)
  | .var name span => (yields_pure _).bind (yields_pure _)
  | .unary op x => (x.collapsing_yields.map (Operand.unary op)).bind (yields_pure _)
  | .chain first rest => by
    have hparts := yields_chain first.collapsing_yields (Links.collapsing_yields rest)
    exact (hparts.map fun c => Operand.chain c.first c.rest).bind (collapse_yields_chain _ _)
  | .group first rest => by
    have hparts := yields_chain first.collapsing_yields (Links.collapsing_yields rest)
    exact (hparts.map fun c => Operand.group c.first c.rest).bind (collapse_yields_group _ _)
  | .call name args span =>
    ((Operand.collapsing_yieldsAll args).map (Operand.call name · span)).bind (yields_pure _)
theorem Links.collapsing_yields :
    (rest : Links) → Yields (collapsing.transformLinks rest) (Links.plain rest)
  | [] => yields_pure _
  | (_, x) :: rest =>
    x.collapsing_yields.bind ((Links.collapsing_yields rest).bind (yields_pure _))
theorem Operand.collapsing_yieldsAll :
    (xs : List Operand) → Yields (collapsing.transformOperands xs) (Operand.plainAll xs)
  | [] => yields_pure _
  | x :: rest =>
    x.collapsing_yields.bind ((Operand.collapsing_yieldsAll rest).bind (yields_pure _))
end

mutual
theorem Statement.collapsing_yields :
    (s : Statement) → Yields (collapsing.transformStatement s) s.plain
  | .declare _ x _ => x.collapsing_yields.bind (yields_pure _)
  | .assign _ x _ => x.collapsing_yields.bind (yields_pure _)
  | .cond test yes none _ =>
    test.collapsing_yields.bind ((Block.collapsing_yields yes).bind (yields_pure _))
  | .cond test yes (some no) _ =>
    test.collapsing_yields.bind ((Block.collapsing_yields yes).bind
      ((Block.collapsing_yields no).bind (yields_pure _)))
  | .loop test body _ =>
    test.collapsing_yields.bind ((Block.collapsing_yields body).bind (yields_pure _))
  | .discard x _ => x.collapsing_yields.bind (yields_pure _)
  | .ret x _ => x.collapsing_yields.bind (yields_pure _)
theorem Block.collapsing_yields :
    (b : Block) → Yields (collapsing.walkBlock b) (Block.plain b)
  | [] => yields_pure _
  | s :: rest => s.collapsing_yields.bind ((Block.collapsing_yields rest).bind (yields_pure _))
end

theorem Function.collapsing_yields (f : Function) :
    Yields (collapsing.transformFunction f) f.plain :=
  (Block.collapsing_yields f.body).bind (yields_pure _)

theorem Function.collapsing_yieldsAll (fs : List Function) :
    Yields (collapsing.walkFunctions fs) (fs.map Function.plain) := by
  induction fs with
  | nil => exact yields_pure _
  | cons f rest ih => exact f.collapsing_yields.bind (ih.bind (yields_pure _))

theorem Operand.normalize_eq_plain (x : Operand) : x.normalize = x.plain := x.collapsing_yields 0

theorem Program.normalize_eq_plain (p : Program) : p.normalize = p.plain := by
  have hyields : Yields (collapsing.transformProgram p) p.plain :=
    (Function.collapsing_yieldsAll p.functions).bind
      ((Block.collapsing_yields p.main).bind (yields_pure _))
  exact hyields 0

namespace Emitter

variable (sigs : Signatures)

theorem lowerOperand_link (first : Operand) (rest : Links) (e : Emitter) :
    lowerOperand sigs (first.link rest) e = lowerLinks sigs rest (lowerOperand sigs first e) := by
  cases rest with
  | nil => rfl
  | cons l rest => rfl

theorem length_plainAll (xs : List Operand) : (Operand.plainAll xs).length = xs.length := by
  induction xs with
  | nil => rfl
  | cons x rest ih => rw [Operand.plainAll, List.length_cons, List.length_cons, ih]

mutual
theorem lowerOperand_plain :
    (x : Operand) → (e : Emitter) → lowerOperand sigs x.plain e = lowerOperand sigs x e
  | .int _, _ => rfl
  | .var _ _, _ => rfl
  | .unary op x, e => by rw [Operand.plain, lowerOperand, lowerOperand, lowerOperand_plain x e]
  | .chain first rest, e | .group first rest, e => by
    rw [Operand.plain, lowerOperand_link, lowerOperand_plain first e, lowerLinks_plain rest,
      lowerOperand]
  | .call name args span, e => by
    rw [Operand.plain, lowerOperand, lowerOperand, lowerOperands_plain args e, length_plainAll]
theorem lowerLinks_plain :
    (rest : Links) → (e : Emitter) → lowerLinks sigs (Links.plain rest) e = lowerLinks sigs rest e
  | [], _ => rfl
  | (op, x) :: rest, e => by
    rw [Links.plain, lowerLinks, lowerLinks, lowerOperand_plain x e, lowerLinks_plain rest]
theorem lowerOperands_plain :
    (xs : List Operand) → (e : Emitter) →
    lowerOperands sigs (Operand.plainAll xs) e = lowerOperands sigs xs e
  | [], _ => rfl
  | x :: rest, e => by
    rw [Operand.plainAll, lowerOperands, lowerOperands, lowerOperand_plain x e,
      lowerOperands_plain rest]
end

mutual
theorem lowerStatement_plain :
    (s : Statement) → (e : Emitter) → lowerStatement sigs s.plain e = lowerStatement sigs s e
  | .declare name x span, e => by
    simp only [Statement.plain, lowerStatement, lowerDeclare, lowerOperand_plain]
  | .assign name x span, e => by
    simp only [Statement.plain, lowerStatement, lowerAssign, lowerOperand_plain]
  | .cond test yes none _, e => by
    simp only [Statement.plain, lowerStatement, lowerOperand_plain, lowerBlock_plain yes]
  | .cond test yes (some no) _, e => by
    simp only [Statement.plain, lowerStatement, lowerOperand_plain, lowerBlock_plain yes,
      lowerBlock_plain no]
  | .loop test body _, e => by
    simp only [Statement.plain, lowerStatement, lowerOperand_plain, lowerBlock_plain body]
  | .discard x _, e => by simp only [Statement.plain, lowerStatement, lowerOperand_plain]
  | .ret x _, e => by simp only [Statement.plain, lowerStatement, lowerOperand_plain]
theorem lowerBlock_plain :
    (b : Block) → (e : Emitter) → lowerBlock sigs (Block.plain b) e = lowerBlock sigs b e
  | [], _ => rfl
  | s :: rest, e => by
    rw [Block.plain, lowerBlock, lowerBlock, lowerStatement_plain s e, lowerBlock_plain rest]
end

theorem lowerFunctions_plain (fs : List Function) (e : Emitter) :
    lowerFunctions sigs (fs.map Function.plain) e = lowerFunctions sigs fs e := by
  induction fs generalizing e with
  | nil => rfl
  | cons f rest ih =>
    rw [List.map_cons, lowerFunctions, lowerFunctions, ih]
    simp only [Function.plain, lowerBody, lowerBlock_plain]

end Emitter

theorem signaturesOf_plain (fs : List Function) :
    signaturesOf (fs.map Function.plain) = signaturesOf fs := by
  simp only [signaturesOf, List.zipIdx_map, List.map_map]
  rfl

theorem duplicateFunctions_plain (seen : List String) (fs : List Function) :
    duplicateFunctions seen (fs.map Function.plain) = duplicateFunctions seen fs := by
  induction fs generalizing seen with
  | nil => rfl
  | cons f rest ih => simp only [List.map_cons, duplicateFunctions, ih, Function.plain]

/-- A program and its normal form are lowered to the same code. -/
theorem Program.emission_normalize (p : Program) : p.normalize.emission = p.emission := by
  rw [normalize_eq_plain]
  simp only [emission, plain, signaturesOf_plain, duplicateFunctions_plain, Emitter.lowerBody,
    Emitter.lowerBlock_plain, Emitter.lowerFunctions_plain]

/-- Compiling does not tell a program from its normal form: the image is the same, or the errors are,
with their positions. -/
theorem Program.compile_normalize (p : Program) : p.normalize.compile = p.compile := by
  rw [compile, emission_normalize]
  rfl

end Wordcode
