import Wordcode.Proofs.NormalForm

/-!
What the collapsing pass leaves and counts. Main statement: no group and no chain without links is
left, the count is the number of those there were, and a second pass finds nothing to do.
-/

namespace Wordcode

namespace Operand

def isGroup : Operand → Bool
  | .group _ _ => true
  | _ => false

def isTrivialChain : Operand → Bool
  | .chain first rest => Chain.isTrivial ⟨first, rest⟩
  | _ => false

def isRedundant (x : Operand) : Bool := x.isGroup || x.isTrivialChain

end Operand

mutual
def Operand.nodes : Operand → List Operand
  | .int value => [.int value]
  | .var name span => [.var name span]
  | .unary op x => .unary op x :: x.nodes
  | .chain first rest => .chain first rest :: (first.nodes ++ Links.nodes rest)
  | .group first rest => .group first rest :: (first.nodes ++ Links.nodes rest)
  | .call name args span => .call name args span :: Operand.nodesAll args
def Links.nodes : Links → List Operand
  | [] => []
  | (_, x) :: rest => x.nodes ++ Links.nodes rest
def Operand.nodesAll : List Operand → List Operand
  | [] => []
  | x :: rest => x.nodes ++ Operand.nodesAll rest
end

mutual
def Statement.nodes : Statement → List Operand
  | .declare _ x _ => x.nodes
  | .assign _ x _ => x.nodes
  | .cond test yes none _ => test.nodes ++ Block.nodes yes
  | .cond test yes (some no) _ => test.nodes ++ (Block.nodes yes ++ Block.nodes no)
  | .loop test body _ => test.nodes ++ Block.nodes body
  | .discard x _ => x.nodes
  | .ret x _ => x.nodes
def Block.nodes : Block → List Operand
  | [] => []
  | s :: rest => s.nodes ++ Block.nodes rest
end

def Program.nodes (p : Program) : List Operand :=
  p.functions.flatMap (Block.nodes ·.body) ++ Block.nodes p.main

def redundancy (xs : List Operand) : Nat := xs.countP Operand.isRedundant

@[simp] theorem redundancy_append (xs ys : List Operand) :
    redundancy (xs ++ ys) = redundancy xs + redundancy ys := List.countP_append

@[simp] theorem redundancy_cons (x : Operand) (xs : List Operand) :
    redundancy (x :: xs) = redundancy xs + if x.isRedundant then 1 else 0 := List.countP_cons

/-- Groups and trivial chains are counted apart from each other. -/
theorem redundancy_eq_add (xs : List Operand) :
    redundancy xs = xs.countP Operand.isGroup + xs.countP Operand.isTrivialChain := by
  induction xs with
  | nil => rfl
  | cons x xs ih =>
    have hone : (if x.isRedundant then 1 else 0) =
        (if x.isGroup then 1 else 0) + if x.isTrivialChain then 1 else 0 := by
      cases x <;> simp only [Operand.isRedundant, Operand.isGroup, Operand.isTrivialChain] <;> grind
    rw [redundancy_cons, List.countP_cons, List.countP_cons, ih, hone]
    omega

theorem redundancy_eq_zero_iff {xs : List Operand} :
    redundancy xs = 0 ↔ ∀ x ∈ xs, x.isRedundant = false := by
  simp [redundancy]

section Counts

variable {α β : Type} {a : α} {j k : Nat}

def Counts (x : StateM Nat α) (k : Nat) : Prop := ∀ n, (x.run n).2 = n + k

theorem counts_pure (a : α) : Counts (pure a) 0 := fun _ => rfl

theorem Counts.bind {x : StateM Nat α} {f : α → StateM Nat β} (hx : Counts x j)
    (ha : Yields x a) (hf : Counts (f a) k) : Counts (x >>= f) (j + k) := by
  intro n
  have hrest := hf (x.run n).2
  rw [hx n, Nat.add_assoc] at hrest
  rw [← hrest, ← ha n, ← hx n]
  rfl

theorem Counts.map {x : StateM Nat α} (f : α → β) (hx : Counts x k) :
    Counts (x >>= fun a => pure (f a)) k := hx

end Counts

theorem collapse_counts (x : Operand) : Counts x.collapse (if x.isRedundant then 1 else 0) := by
  intro n
  match x with
  | .int _ | .var _ _ | .unary _ _ | .call _ _ _ => rfl
  | .chain _ [] | .chain _ (_ :: _) | .group _ [] | .group _ (_ :: _) => rfl

/-- A chain is as trivial after its links were collapsed as it was before. -/
theorem isRedundant_chain_plain (first : Operand) (rest : Links) :
    (Operand.chain first.plain (Links.plain rest)).isRedundant =
      (Operand.chain first rest).isRedundant := by
  cases rest <;> rfl

theorem counts_chain {x : StateM Nat Operand} {y : StateM Nat Links} {first : Operand}
    {j k : Nat} (hx : Counts x j) (hfirst : Yields x first) (hy : Counts y k) :
    Counts (do let first ← x; let rest ← y; return Chain.mk first rest) (j + k) :=
  hx.bind hfirst (hy.map (Chain.mk first))

mutual
theorem Operand.collapsing_counts :
    (x : Operand) → Counts (collapsing.transformOperand x) (redundancy x.nodes)
  | .int value => (counts_pure _).bind (yields_pure _) (collapse_counts (.int value))
  | .var name span => (counts_pure _).bind (yields_pure _) (collapse_counts (.var name span))
  | .unary op x => by
    rw [Operand.nodes, redundancy_cons]
    exact (x.collapsing_counts.map (Operand.unary op)).bind
      (x.collapsing_yields.map (Operand.unary op)) (collapse_counts (.unary op x.plain))
  | .chain first rest => by
    have hparts := counts_chain first.collapsing_counts first.collapsing_yields
      (Links.collapsing_counts rest)
    have hyields := yields_chain first.collapsing_yields (Links.collapsing_yields rest)
    rw [Operand.nodes, redundancy_cons, redundancy_append, ← isRedundant_chain_plain]
    exact (hparts.map fun c => Operand.chain c.first c.rest).bind
      (hyields.map fun c => Operand.chain c.first c.rest) (collapse_counts _)
  | .group first rest => by
    have hparts := counts_chain first.collapsing_counts first.collapsing_yields
      (Links.collapsing_counts rest)
    have hyields := yields_chain first.collapsing_yields (Links.collapsing_yields rest)
    rw [Operand.nodes, redundancy_cons, redundancy_append]
    exact (hparts.map fun c => Operand.group c.first c.rest).bind
      (hyields.map fun c => Operand.group c.first c.rest)
      (collapse_counts (.group first.plain (Links.plain rest)))
  | .call name args span => by
    rw [Operand.nodes, redundancy_cons]
    exact ((Operand.collapsing_countsAll args).map (Operand.call name · span)).bind
      ((Operand.collapsing_yieldsAll args).map (Operand.call name · span))
      (collapse_counts (.call name (Operand.plainAll args) span))
theorem Links.collapsing_counts :
    (rest : Links) → Counts (collapsing.transformLinks rest) (redundancy (Links.nodes rest))
  | [] => counts_pure _
  | (op, x) :: rest => by
    rw [Links.nodes, redundancy_append]
    exact x.collapsing_counts.bind x.collapsing_yields
      ((Links.collapsing_counts rest).map ((op, x.plain) :: ·))
theorem Operand.collapsing_countsAll :
    (xs : List Operand) →
      Counts (collapsing.transformOperands xs) (redundancy (Operand.nodesAll xs))
  | [] => counts_pure _
  | x :: rest => by
    rw [Operand.nodesAll, redundancy_append]
    exact x.collapsing_counts.bind x.collapsing_yields
      ((Operand.collapsing_countsAll rest).map (x.plain :: ·))
end

mutual
theorem Statement.collapsing_counts :
    (s : Statement) → Counts (collapsing.transformStatement s) (redundancy s.nodes)
  | .declare name x span => x.collapsing_counts.map (Statement.declare name · span)
  | .assign name x span => x.collapsing_counts.map (Statement.assign name · span)
  | .cond test yes none span => by
    rw [Statement.nodes, redundancy_append]
    exact test.collapsing_counts.bind test.collapsing_yields
      ((Block.collapsing_counts yes).map (Statement.cond test.plain · none span))
  | .cond test yes (some no) span => by
    rw [Statement.nodes, redundancy_append, redundancy_append]
    exact test.collapsing_counts.bind test.collapsing_yields
      ((Block.collapsing_counts yes).bind (Block.collapsing_yields yes)
        ((Block.collapsing_counts no).map
          fun no => Statement.cond test.plain (Block.plain yes) (some no) span))
  | .loop test body span => by
    rw [Statement.nodes, redundancy_append]
    exact test.collapsing_counts.bind test.collapsing_yields
      ((Block.collapsing_counts body).map (Statement.loop test.plain · span))
  | .discard x span => x.collapsing_counts.map (Statement.discard · span)
  | .ret x span => x.collapsing_counts.map (Statement.ret · span)
theorem Block.collapsing_counts :
    (b : Block) → Counts (collapsing.walkBlock b) (redundancy (Block.nodes b))
  | [] => counts_pure _
  | s :: rest => by
    rw [Block.nodes, redundancy_append]
    exact s.collapsing_counts.bind s.collapsing_yields
      ((Block.collapsing_counts rest).map (s.plain :: ·))
end

theorem Function.collapsing_counts (fs : List Function) :
    Counts (collapsing.walkFunctions fs) (redundancy (fs.flatMap (Block.nodes ·.body))) := by
  induction fs with
  | nil => exact counts_pure _
  | cons f fs ih =>
    have hbody : Counts (collapsing.transformFunction f) (redundancy (Block.nodes f.body)) :=
      (Block.collapsing_counts f.body).map fun body => { f with body }
    rw [List.flatMap_cons, redundancy_append]
    exact hbody.bind f.collapsing_yields (ih.map (f.plain :: ·))

theorem Program.collapsing_counts (p : Program) :
    Counts (collapsing.transformProgram p) (redundancy p.nodes) := by
  rw [Program.nodes, redundancy_append]
  exact (Function.collapsing_counts p.functions).bind
    (Function.collapsing_yieldsAll p.functions)
    ((Block.collapsing_counts p.main).map (Program.mk (p.functions.map Function.plain)))

section Normal

/-- Putting a chain together makes no redundant node. -/
theorem redundancy_link (first : Operand) (rest : Links) :
    redundancy (first.link rest).nodes = redundancy first.nodes + redundancy (Links.nodes rest) := by
  cases rest with
  | nil => rfl
  | cons l rest =>
    rw [Operand.link, Operand.nodes, redundancy_cons, redundancy_append]
    rfl

mutual
theorem Operand.redundancy_plain : (x : Operand) → redundancy x.plain.nodes = 0
  | .int _ | .var _ _ => rfl
  | .unary _ x => x.redundancy_plain
  | .chain first rest | .group first rest => by
    rw [Operand.plain, redundancy_link, first.redundancy_plain, Links.redundancy_plain rest]
  | .call _ args _ => Operand.redundancy_plainAll args
theorem Links.redundancy_plain : (rest : Links) → redundancy (Links.nodes (Links.plain rest)) = 0
  | [] => rfl
  | (_, x) :: rest => by
    rw [Links.plain, Links.nodes, redundancy_append, x.redundancy_plain,
      Links.redundancy_plain rest]
theorem Operand.redundancy_plainAll :
    (xs : List Operand) → redundancy (Operand.nodesAll (Operand.plainAll xs)) = 0
  | [] => rfl
  | x :: rest => by
    rw [Operand.plainAll, Operand.nodesAll, redundancy_append, x.redundancy_plain,
      Operand.redundancy_plainAll rest]
end

mutual
theorem Statement.redundancy_plain : (s : Statement) → redundancy s.plain.nodes = 0
  | .declare _ x _ | .assign _ x _ | .discard x _ | .ret x _ => x.redundancy_plain
  | .cond test yes none _ => by
    rw [Statement.plain, Statement.nodes, redundancy_append, test.redundancy_plain,
      Block.redundancy_plain yes]
  | .cond test yes (some no) _ => by
    rw [Statement.plain, Statement.nodes, redundancy_append, redundancy_append,
      test.redundancy_plain, Block.redundancy_plain yes, Block.redundancy_plain no]
  | .loop test body _ => by
    rw [Statement.plain, Statement.nodes, redundancy_append, test.redundancy_plain,
      Block.redundancy_plain body]
theorem Block.redundancy_plain : (b : Block) → redundancy (Block.nodes (Block.plain b)) = 0
  | [] => rfl
  | s :: rest => by
    rw [Block.plain, Block.nodes, redundancy_append, s.redundancy_plain,
      Block.redundancy_plain rest]
end

theorem Function.redundancy_plain (fs : List Function) :
    redundancy ((fs.map Function.plain).flatMap (Block.nodes ·.body)) = 0 := by
  induction fs with
  | nil => rfl
  | cons f fs ih =>
    rw [List.map_cons, List.flatMap_cons, redundancy_append, ih]
    exact Block.redundancy_plain f.body

theorem Program.redundancy_plain (p : Program) : redundancy p.plain.nodes = 0 := by
  rw [Program.nodes, redundancy_append, Program.plain, Function.redundancy_plain,
    Block.redundancy_plain]

end Normal

section Fixed

mutual
theorem Operand.plain_eq_self : (x : Operand) → redundancy x.nodes = 0 → x.plain = x
  | .int _, _ | .var _ _, _ => rfl
  | .unary op x, h => by
    rw [Operand.plain, x.plain_eq_self h]
  | .chain first [], h => by
    simp [Operand.nodes, Operand.isRedundant, Operand.isTrivialChain, Chain.isTrivial] at h
  | .chain first (l :: rest), h => by
    simp only [Operand.nodes, redundancy_cons, redundancy_append] at h
    rw [Operand.plain, first.plain_eq_self (by omega), Links.plain_eq_self (l :: rest) (by omega),
      Operand.link]
  | .group first rest, h => by
    simp [Operand.nodes, Operand.isRedundant, Operand.isGroup] at h
  | .call name args span, h => by
    rw [Operand.plain, Operand.plainAll_eq_self args h]
theorem Links.plain_eq_self :
    (rest : Links) → redundancy (Links.nodes rest) = 0 → Links.plain rest = rest
  | [], _ => rfl
  | (op, x) :: rest, h => by
    rw [Links.nodes, redundancy_append] at h
    rw [Links.plain, x.plain_eq_self (by omega), Links.plain_eq_self rest (by omega)]
theorem Operand.plainAll_eq_self :
    (xs : List Operand) → redundancy (Operand.nodesAll xs) = 0 → Operand.plainAll xs = xs
  | [], _ => rfl
  | x :: rest, h => by
    rw [Operand.nodesAll, redundancy_append] at h
    rw [Operand.plainAll, x.plain_eq_self (by omega), Operand.plainAll_eq_self rest (by omega)]
end

mutual
theorem Statement.plain_eq_self : (s : Statement) → redundancy s.nodes = 0 → s.plain = s
  | .declare _ x _, h | .assign _ x _, h | .discard x _, h | .ret x _, h => by
    rw [Statement.plain, x.plain_eq_self h]
  | .cond test yes none _, h => by
    rw [Statement.nodes, redundancy_append] at h
    rw [Statement.plain, test.plain_eq_self (by omega), Block.plain_eq_self yes (by omega)]
  | .cond test yes (some no) _, h => by
    rw [Statement.nodes, redundancy_append, redundancy_append] at h
    rw [Statement.plain, test.plain_eq_self (by omega), Block.plain_eq_self yes (by omega),
      Block.plain_eq_self no (by omega)]
  | .loop test body _, h => by
    rw [Statement.nodes, redundancy_append] at h
    rw [Statement.plain, test.plain_eq_self (by omega), Block.plain_eq_self body (by omega)]
theorem Block.plain_eq_self :
    (b : Block) → redundancy (Block.nodes b) = 0 → Block.plain b = b
  | [], _ => rfl
  | s :: rest, h => by
    rw [Block.nodes, redundancy_append] at h
    rw [Block.plain, s.plain_eq_self (by omega), Block.plain_eq_self rest (by omega)]
end

theorem Function.map_plain_eq_self (fs : List Function)
    (h : redundancy (fs.flatMap (Block.nodes ·.body)) = 0) : fs.map Function.plain = fs := by
  induction fs with
  | nil => rfl
  | cons f fs ih =>
    rw [List.flatMap_cons, redundancy_append] at h
    rw [List.map_cons, ih (by omega), Function.plain, Block.plain_eq_self f.body (by omega)]

theorem Program.plain_eq_self (p : Program) (h : redundancy p.nodes = 0) : p.plain = p := by
  rw [Program.nodes, redundancy_append] at h
  rw [Program.plain, Function.map_plain_eq_self p.functions (by omega),
    Block.plain_eq_self p.main (by omega)]

end Fixed

structure Collapses {τ : Type} (nodes : τ → List Operand) (pass : τ → τ × Nat) (t : τ) : Prop where
  /-- Nothing redundant is left. -/
  normal : ∀ x ∈ nodes (pass t).1, x.isGroup = false ∧ x.isTrivialChain = false
  count : (pass t).2 =
    (nodes t).countP Operand.isGroup + (nodes t).countP Operand.isTrivialChain
  changed : (pass t).1 ≠ t ↔ 0 < (pass t).2
  /-- A second pass leaves the tree and counts nothing. -/
  stable : pass (pass t).1 = ((pass t).1, 0)

/-- What has to be known of the normal form and of the count. -/
theorem collapses_of_plain {τ : Type} {nodes : τ → List Operand} {pass : τ → τ × Nat}
    {plain : τ → τ} (hpass : ∀ t, pass t = (plain t, redundancy (nodes t)))
    (hplain : ∀ t, redundancy (nodes (plain t)) = 0)
    (hself : ∀ t, redundancy (nodes t) = 0 → plain t = t) (t : τ) : Collapses nodes pass t := by
  have hnormal := redundancy_eq_zero_iff.mp (hplain t)
  refine ⟨?_, ?_, ?_, ?_⟩
  · intro x hx
    rw [hpass] at hx
    simpa [Operand.isRedundant] using hnormal x hx
  · rw [hpass, redundancy_eq_add]
  · simp only [hpass, Nat.pos_iff_ne_zero]
    refine not_congr ⟨?_, hself t⟩
    intro heq
    have hzero := hplain t
    rwa [heq] at hzero
  · rw [hpass, hpass, hplain t, hself (plain t) (hplain t)]

/-- Collapsing a program or an operand leaves no group and no chain without links, counts those that
were there, changes the tree exactly if there were some, and has nothing to do a second time. -/
theorem collapseAll_reaches_normal_form :
    (∀ p : Program, Collapses Program.nodes Program.collapseAll p) ∧
      ∀ x : Operand, Collapses Operand.nodes Operand.collapseAll x := by
  constructor
  · refine collapses_of_plain ?_ Program.redundancy_plain Program.plain_eq_self
    intro p
    have hcount := p.collapsing_counts 0
    rw [Nat.zero_add] at hcount
    exact Prod.ext p.normalize_eq_plain hcount
  · refine collapses_of_plain ?_ Operand.redundancy_plain Operand.plain_eq_self
    intro x
    have hcount := x.collapsing_counts 0
    rw [Nat.zero_add] at hcount
    exact Prod.ext x.normalize_eq_plain hcount

end Wordcode
