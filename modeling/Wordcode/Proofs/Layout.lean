import Wordcode.Proofs.StaticCheck

/-!
The layout of a program's code, told without emission. Widths come from the tree alone, so each word
is written once, at its place.
-/

namespace Wordcode

mutual
def Operand.width : Operand → Nat
  | .int _ => 2
  | .var _ _ => 2
  | .unary _ x => x.width + 1
  | .chain first rest => first.width + Links.width rest
  | .group first rest => first.width + Links.width rest
  | .call _ args _ => Operand.widthAll args + 3
def Links.width : Links → Nat
  | [] => 0
  | (_, x) :: rest => x.width + 1 + Links.width rest
def Operand.widthAll : List Operand → Nat
  | [] => 0
  | x :: rest => x.width + Operand.widthAll rest
end

mutual
def Statement.width : Statement → Nat
  | .declare _ x _ => x.width + 2
  | .assign _ x _ => x.width + 2
  | .cond test yes none _ => test.width + 2 + Block.width yes
  | .cond test yes (some no) _ => test.width + 2 + Block.width yes + 2 + Block.width no
  | .loop test body _ => test.width + 2 + Block.width body + 2
  | .discard x _ => x.width + 1
  | .ret x _ => x.width + 1
def Block.width : Block → Nat
  | [] => 0
  | s :: rest => s.width + Block.width rest
end

/-- What names stand for in a body: variables for slots, functions for addresses. -/
structure Linkage where
  names : List String
  target : String → Nat

def Linkage.slot (l : Linkage) (name : String) : Word := .ofNat (l.names.idxOf name)

mutual
def Operand.layout (l : Linkage) : Operand → List Word
  | .int value => (Instruction.int value).encode
  | .var name _ => (Instruction.load (l.slot name)).encode
  | .unary op x => x.layout l ++ (Instruction.unary op).encode
  | .chain first rest => first.layout l ++ Links.layout l rest
  | .group first rest => first.layout l ++ Links.layout l rest
  | .call name args _ =>
    Operand.layoutAll l args
      ++ (Instruction.call (.ofNat args.length) (.ofNat (l.target name))).encode
def Links.layout (l : Linkage) : Links → List Word
  | [] => []
  | (op, x) :: rest => x.layout l ++ (Instruction.binary op).encode ++ Links.layout l rest
def Operand.layoutAll (l : Linkage) : List Operand → List Word
  | [] => []
  | x :: rest => x.layout l ++ Operand.layoutAll l rest
end

mutual
def Statement.layout (l : Linkage) : Statement → List Word
  | .declare name x _ => x.layout l ++ (Instruction.store (l.slot name)).encode
  | .assign name x _ => x.layout l ++ (Instruction.store (l.slot name)).encode
  | .cond test yes none _ =>
    test.layout l ++ (Instruction.jumpIfFalse (.ofNat (Block.width yes + 1))).encode
      ++ Block.layout l yes
  | .cond test yes (some no) _ =>
    test.layout l ++ (Instruction.jumpIfFalse (.ofNat (Block.width yes + 3))).encode
      ++ Block.layout l yes ++ (Instruction.jump (.ofNat (Block.width no + 1))).encode
      ++ Block.layout l no
  | .loop test body _ =>
    test.layout l ++ (Instruction.jumpIfFalse (.ofNat (Block.width body + 3))).encode
      ++ Block.layout l body
      ++ (Instruction.jump (-.ofNat (test.width + Block.width body + 3))).encode
  | .discard x _ => x.layout l ++ Instruction.pop.encode
  | .ret x _ => x.layout l ++ Instruction.ret.encode
def Block.layout (l : Linkage) : Block → List Word
  | [] => []
  | s :: rest => s.layout l ++ Block.layout l rest
end

namespace Function

def names (f : Function) : List String := f.params ++ Block.declares f.body

def width (f : Function) : Nat := 2 + Block.width f.body + 2

/-- The code of a body at `start` in a stream that ends at `stop`, between the word that makes room
for its slots and the jump to the end. -/
def layout (target : String → Nat) (start stop : Nat) (f : Function) : List Word :=
  (Instruction.stackAdjust (.ofNat f.names.length)).encode
    ++ Block.layout ⟨f.names, target⟩ f.body
    ++ (Instruction.jump (.ofNat (stop - (start + 2 + Block.width f.body + 1)))).encode

def layoutAll (target : String → Nat) (stop : Nat) : Nat → List Function → List Word
  | _, [] => []
  | start, f :: rest => f.layout target start stop ++ layoutAll target stop (start + f.width) rest

def widthAll : List Function → Nat
  | [] => 0
  | f :: rest => f.width + widthAll rest

def placed (start : Nat) (f : Function) : Body where
  name := f.name
  start
  stop := start + f.width
  arity := f.params.length
  locals := f.names

def placedAll : Nat → List Function → List Body
  | _, [] => []
  | start, f :: rest => f.placed start :: placedAll (start + f.width) rest

end Function

namespace Program

def start (p : Program) (k : Nat) : Nat := Function.widthAll (p.bodies.take k)

def target (p : Program) (name : String) : Nat :=
  match p.functions.findIdx? (·.name == name) with
  | some k => p.start (k + 1)
  | none => 0

def width (p : Program) : Nat := Function.widthAll p.bodies

def layout (p : Program) : List Word := Function.layoutAll p.target p.width 0 p.bodies

end Program

mutual
@[simp] theorem Operand.length_layout (l : Linkage) :
    (x : Operand) → (x.layout l).length = x.width
  | .int _ => rfl
  | .var _ _ => rfl
  | .unary op x => by
    rw [Operand.layout, List.length_append, x.length_layout l]
    rfl
  | .chain first rest | .group first rest => by
    rw [Operand.layout, List.length_append, first.length_layout l, Links.length_layout l rest]
    rfl
  | .call _ args _ => by
    rw [Operand.layout, List.length_append, Operand.length_layoutAll l args]
    rfl
@[simp] theorem Links.length_layout (l : Linkage) :
    (rest : Links) → (Links.layout l rest).length = Links.width rest
  | [] => rfl
  | (op, x) :: rest => by
    rw [Links.layout, List.length_append, List.length_append, x.length_layout l,
      Links.length_layout l rest]
    rfl
@[simp] theorem Operand.length_layoutAll (l : Linkage) :
    (xs : List Operand) → (Operand.layoutAll l xs).length = Operand.widthAll xs
  | [] => rfl
  | x :: rest => by
    rw [Operand.layoutAll, List.length_append, x.length_layout l, Operand.length_layoutAll l rest]
    rfl
end

mutual
@[simp] theorem Statement.length_layout (l : Linkage) :
    (s : Statement) → (s.layout l).length = s.width
  | .declare _ x _ => by
    rw [Statement.layout, List.length_append, x.length_layout l]
    rfl
  | .assign _ x _ => by
    rw [Statement.layout, List.length_append, x.length_layout l]
    rfl
  | .cond test yes none _ => by
    simp only [Statement.layout, Statement.width, List.length_append, Instruction.length_encode,
      test.length_layout l, Block.length_layout l yes]
    rfl
  | .cond test yes (some no) _ => by
    simp only [Statement.layout, Statement.width, List.length_append, Instruction.length_encode,
      test.length_layout l, Block.length_layout l yes, Block.length_layout l no]
    rfl
  | .loop test body _ => by
    simp only [Statement.layout, Statement.width, List.length_append, Instruction.length_encode,
      test.length_layout l, Block.length_layout l body]
    rfl
  | .discard x _ => by
    rw [Statement.layout, List.length_append, x.length_layout l]
    rfl
  | .ret x _ => by
    rw [Statement.layout, List.length_append, x.length_layout l]
    rfl
@[simp] theorem Block.length_layout (l : Linkage) :
    (b : Block) → (Block.layout l b).length = Block.width b
  | [] => rfl
  | s :: rest => by
    rw [Block.layout, List.length_append, s.length_layout l, Block.length_layout l rest]
    rfl
end

namespace Function

@[simp] theorem length_layout (target : String → Nat) (start stop : Nat) (f : Function) :
    (f.layout target start stop).length = f.width := by
  simp only [layout, width, List.length_append, Instruction.length_encode, Block.length_layout]
  rfl

theorem getElem?_placedAll (fs : List Function) (start k : Nat) :
    (placedAll start fs)[k]? = (fs[k]?).map (placed (start + widthAll (fs.take k))) := by
  induction fs generalizing start k with
  | nil => rfl
  | cons f fs ih =>
    cases k with
    | zero => rfl
    | succ k =>
      have h := ih (start + f.width) k
      simpa only [placedAll, List.getElem?_cons_succ, List.take_succ_cons, widthAll, Nat.add_assoc]
        using h

end Function

end Wordcode
