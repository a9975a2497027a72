import Wordcode.Proofs.Collapse
import Wordcode.Proofs.Landing

/-!
Where the code of each part of a tree stands. The addresses follow from the widths of what comes
before, and no temporaries are left where a statement starts.
-/

namespace Wordcode

mutual
def Operand.sites : Nat → Operand → List (Nat × Operand)
  | a, .int value => [(a, .int value)]
  | a, .var name span => [(a, .var name span)]
  | a, .unary op x => (a, .unary op x) :: x.sites a
  | a, .chain first rest =>
    (a, .chain first rest) :: (first.sites a ++ Links.sites (a + first.width) rest)
  | a, .group first rest =>
    (a, .group first rest) :: (first.sites a ++ Links.sites (a + first.width) rest)
  | a, .call name args span => (a, .call name args span) :: Operand.sitesAll a args
def Links.sites : Nat → Links → List (Nat × Operand)
  | _, [] => []
  | a, (_, x) :: rest => x.sites a ++ Links.sites (a + (x.width + 1)) rest
def Operand.sitesAll : Nat → List Operand → List (Nat × Operand)
  | _, [] => []
  | a, x :: rest => x.sites a ++ Operand.sitesAll (a + x.width) rest
end

mutual
def Statement.sites : Nat → Statement → List (Nat × Statement)
  | a, .declare name x span => [(a, .declare name x span)]
  | a, .assign name x span => [(a, .assign name x span)]
  | a, .cond test yes none span =>
    (a, .cond test yes none span) :: Block.sites (a + (test.width + 2)) yes
  | a, .cond test yes (some no) span =>
    (a, .cond test yes (some no) span) :: (Block.sites (a + (test.width + 2)) yes
      ++ Block.sites (a + (test.width + 2 + Block.width yes + 2)) no)
  | a, .loop test body span =>
    (a, .loop test body span) :: Block.sites (a + (test.width + 2)) body
  | a, .discard x span => [(a, .discard x span)]
  | a, .ret x span => [(a, .ret x span)]
def Block.sites : Nat → Block → List (Nat × Statement)
  | _, [] => []
  | a, s :: rest => s.sites a ++ Block.sites (a + s.width) rest
end

def Statement.operand : Statement → Operand
  | .declare _ x _ | .assign _ x _ | .discard x _ | .ret x _ => x
  | .cond test _ _ _ | .loop test _ _ => test

def operandSites (sites : List (Nat × Statement)) : List (Nat × Operand) :=
  sites.flatMap fun (a, s) => s.operand.sites a

section Nodes

mutual
theorem Operand.map_sites : (x : Operand) → (a : Nat) → (x.sites a).map Prod.snd = x.nodes
  | .int _, _ | .var _ _, _ => rfl
  | .unary _ x, a => by
    rw [Operand.sites, List.map_cons, x.map_sites, Operand.nodes]
  | .chain first rest, a | .group first rest, a => by
    rw [Operand.sites, List.map_cons, List.map_append, first.map_sites, Links.map_sites rest,
      Operand.nodes]
  | .call _ args _, a => by
    rw [Operand.sites, List.map_cons, Operand.map_sitesAll args, Operand.nodes]
theorem Links.map_sites : (rest : Links) → (a : Nat) →
    (Links.sites a rest).map Prod.snd = Links.nodes rest
  | [], _ => rfl
  | (_, x) :: rest, a => by
    rw [Links.sites, List.map_append, x.map_sites, Links.map_sites rest, Links.nodes]
theorem Operand.map_sitesAll : (xs : List Operand) → (a : Nat) →
    (Operand.sitesAll a xs).map Prod.snd = Operand.nodesAll xs
  | [], _ => rfl
  | x :: rest, a => by
    rw [Operand.sitesAll, List.map_append, x.map_sites, Operand.map_sitesAll rest,
      Operand.nodesAll]
end

theorem map_operandSites_cons (a : Nat) (s : Statement) (rest : List (Nat × Statement)) :
    (operandSites ((a, s) :: rest)).map Prod.snd =
      s.operand.nodes ++ (operandSites rest).map Prod.snd := by
  rw [operandSites, List.flatMap_cons, List.map_append, Operand.map_sites]
  rfl

theorem map_operandSites_append (sites rest : List (Nat × Statement)) :
    (operandSites (sites ++ rest)).map Prod.snd =
      (operandSites sites).map Prod.snd ++ (operandSites rest).map Prod.snd := by
  rw [operandSites, List.flatMap_append, List.map_append]
  rfl

mutual
theorem Statement.map_operandSites : (s : Statement) → (a : Nat) →
    (operandSites (s.sites a)).map Prod.snd = s.nodes
  | .declare _ x _, a | .assign _ x _, a | .discard x _, a | .ret x _, a => by
    rw [Statement.sites, map_operandSites_cons]
    exact List.append_nil _
  | .cond test yes none _, a => by
    rw [Statement.sites, map_operandSites_cons, Block.map_operandSites yes, Statement.nodes]
    rfl
  | .cond test yes (some no) _, a => by
    rw [Statement.sites, map_operandSites_cons, map_operandSites_append,
      Block.map_operandSites yes, Block.map_operandSites no, Statement.nodes]
    rfl
  | .loop test body _, a => by
    rw [Statement.sites, map_operandSites_cons, Block.map_operandSites body, Statement.nodes]
    rfl
/-- No operand of a block is left out. -/
theorem Block.map_operandSites : (b : Block) → (a : Nat) →
    (operandSites (Block.sites a b)).map Prod.snd = Block.nodes b
  | [], _ => rfl
  | s :: rest, a => by
    rw [Block.sites, map_operandSites_append, s.map_operandSites, Block.map_operandSites rest,
      Block.nodes]
end

end Nodes

open Instruction (widthAll level)

/-- Of the instructions that start at `address`, `js` are those from `a` on, and `h` temporaries are
there before them. -/
def Sits (address : Nat) (is : List Instruction) (a h : Nat) (js : List Instruction) : Prop :=
  ∃ before after, is = before ++ (js ++ after) ∧ a = address + widthAll before ∧ level 0 before = h

namespace Sits

variable {address a c h : Nat} {is js ks : List Instruction}

theorem self : Sits address is address 0 is := ⟨[], [], (List.append_nil is).symm, rfl, rfl⟩

theorem bounds (hsits : Sits address is a h js) :
    address ≤ a ∧ a + widthAll js ≤ address + widthAll is := by
  obtain ⟨before, after, rfl, rfl, -⟩ := hsits
  simp only [Instruction.widthAll_append]
  omega

theorem left (hsits : Sits address is a h ks) (js : List Instruction) :
    Sits address (is ++ js) a h ks := by
  obtain ⟨before, after, rfl, ha, hlevel⟩ := hsits
  exact ⟨before, after ++ js, by simp only [List.append_assoc], ha, hlevel⟩

/-- Code inside of code that sits where no temporaries are left. -/
theorem trans (hsits : Sits address is c 0 js) (hinner : Sits c js a h ks) :
    Sits address is a h ks := by
  obtain ⟨before, after, rfl, rfl, hlevel⟩ := hsits
  obtain ⟨before', after', rfl, rfl, rfl⟩ := hinner
  refine ⟨before ++ before', after' ++ after, by simp only [List.append_assoc], ?_, ?_⟩
  · rw [Instruction.widthAll_append, Nat.add_assoc]
  · rw [Instruction.level_append, hlevel]

theorem right (hsits : Sits c js a h ks) (hc : address + widthAll is = c)
    (hlevel : level 0 is = 0) : Sits address (is ++ js) a h ks := by
  subst hc
  refine trans ⟨is, [], ?_, rfl, hlevel⟩ hsits
  rw [List.append_nil]

theorem exists_right (hsits : ∃ h, Sits c js a h ks) (hc : address + widthAll is = c) :
    ∃ h, Sits address (is ++ js) a h ks := by
  obtain ⟨h, before, after, rfl, rfl, -⟩ := hsits
  subst hc
  refine ⟨_, is ++ before, after, by simp only [List.append_assoc], ?_, rfl⟩
  rw [Instruction.widthAll_append, Nat.add_assoc]

theorem drop {before after : List Instruction} (hsits : Sits address is a h (before ++ after)) :
    Sits address is (a + widthAll before) (level h before) after := by
  obtain ⟨before', after', rfl, rfl, rfl⟩ := hsits
  refine ⟨before' ++ before, after', by simp only [List.append_assoc], ?_, ?_⟩
  · rw [Instruction.widthAll_append, Nat.add_assoc]
  · rw [Instruction.level_append]

/-- Where more instructions follow, each of these addresses is that of an instruction. -/
theorem exists_finds (hsits : Sits address is a h js) (hks : ks ≠ []) :
    ∃ i, Finds address (is ++ ks) a h i := by
  obtain ⟨before, after, rfl, ha, hlevel⟩ := hsits
  obtain ⟨i, rest, hcons⟩ :=
    List.exists_cons_of_ne_nil (List.append_ne_nil_of_right_ne_nil (js ++ after) hks)
  refine ⟨i, before, rest, ?_, ha, hlevel⟩
  rw [List.append_assoc, hcons]

end Sits

section Trees

variable (l : Linkage)

mutual
theorem Operand.sits {site : Nat × Operand} : (x : Operand) → (address : Nat) →
    site ∈ x.sites address → ∃ h, Sits address (x.assemble l) site.1 h (site.2.assemble l)
  | .int _, _, hy | .var _ _, _, hy => by
    cases List.mem_singleton.mp hy
    exact ⟨0, .self⟩
  | .unary _ x, address, hy => by
    rcases List.mem_cons.mp hy with heq | hy
    · cases heq
      exact ⟨0, .self⟩
    · obtain ⟨h, hx⟩ := x.sits address hy
      exact ⟨h, hx.left _⟩
  | .chain first rest, address, hy | .group first rest, address, hy => by
    rcases List.mem_cons.mp hy with heq | hy
    · cases heq
      exact ⟨0, .self⟩
    · rcases List.mem_append.mp hy with hy | hy
      · obtain ⟨h, hfirst⟩ := first.sits address hy
        exact ⟨h, hfirst.left _⟩
      · exact Sits.exists_right (Links.sits rest _ hy) (by rw [first.widthAll_assemble])
  | .call _ args _, address, hy => by
    rcases List.mem_cons.mp hy with heq | hy
    · cases heq
      exact ⟨0, .self⟩
    · obtain ⟨h, hargs⟩ := Operand.sitsAll args address hy
      exact ⟨h, hargs.left _⟩
theorem Links.sits {site : Nat × Operand} : (rest : Links) → (address : Nat) →
    site ∈ Links.sites address rest →
    ∃ h, Sits address (Links.assemble l rest) site.1 h (site.2.assemble l)
  | [], _, hy => by cases hy
  | (_, x) :: rest, address, hy => by
    rcases List.mem_append.mp hy with hy | hy
    · obtain ⟨h, hx⟩ := x.sits address hy
      exact ⟨h, (hx.left _).left _⟩
    · refine Sits.exists_right (Links.sits rest _ hy) ?_
      simp only [Instruction.widthAll_append, x.widthAll_assemble, Instruction.widthAll,
        Instruction.width_binary]
theorem Operand.sitsAll {site : Nat × Operand} : (xs : List Operand) → (address : Nat) →
    site ∈ Operand.sitesAll address xs →
    ∃ h, Sits address (Operand.assembleAll l xs) site.1 h (site.2.assemble l)
  | [], _, hy => by cases hy
  | x :: rest, address, hy => by
    rcases List.mem_append.mp hy with hy | hy
    · obtain ⟨h, hx⟩ := x.sits address hy
      exact ⟨h, hx.left _⟩
    · exact Sits.exists_right (Operand.sitsAll rest _ hy) (by rw [x.widthAll_assemble])
end

mutual
theorem Statement.sits {site : Nat × Statement} : (s : Statement) → s.width < addressSpace →
    (address : Nat) → site ∈ s.sites address →
    Sits address (s.assemble l) site.1 0 (site.2.assemble l)
  | .declare _ x _, _, _, hs | .assign _ x _, _, _, hs | .discard x _, _, _, hs
  | .ret x _, _, _, hs => by
    cases List.mem_singleton.mp hs
    exact .self
  | .cond test yes none _, hwidth, address, hs => by
    simp only [Statement.width] at hwidth
    rcases List.mem_cons.mp hs with heq | hs
    · cases heq
      exact .self
    · exact (Block.sits yes (by omega) _ hs).right (by rw [Operand.widthAll_test])
        (Operand.level_test (by omega))
  | .cond test yes (some no) _, hwidth, address, hs => by
    simp only [Statement.width] at hwidth
    rcases List.mem_cons.mp hs with heq | hs
    · cases heq
      exact .self
    · rcases List.mem_append.mp hs with hs | hs
      · exact (((Block.sits yes (by omega) _ hs).right (by rw [Operand.widthAll_test])
          (Operand.level_test (by omega))).left _).left _
      · exact (Block.sits no (by omega) _ hs).right (by rw [Operand.widthAll_branch])
          (Operand.level_branch (by omega))
  | .loop test body _, hwidth, address, hs => by
    simp only [Statement.width] at hwidth
    rcases List.mem_cons.mp hs with heq | hs
    · cases heq
      exact .self
    · exact ((Block.sits body (by omega) _ hs).right (by rw [Operand.widthAll_test])
        (Operand.level_test (by omega))).left _
theorem Block.sits {site : Nat × Statement} : (b : Block) → Block.width b < addressSpace →
    (address : Nat) → site ∈ Block.sites address b →
    Sits address (Block.assemble l b) site.1 0 (site.2.assemble l)
  | [], _, _, hs => by cases hs
  | s :: rest, hwidth, address, hs => by
    rw [Block.width] at hwidth
    rcases List.mem_append.mp hs with hs | hs
    · exact (s.sits (by omega) address hs).left _
    · exact (Block.sits rest (by omega) _ hs).right (by rw [s.widthAll_assemble])
        (Statement.level_assemble (by omega))
end

/-- The code of a statement starts with that of its operand. -/
theorem Statement.sits_operand (s : Statement) (address : Nat) :
    Sits address (s.assemble l) address 0 (s.operand.assemble l) := by
  cases s with
  | declare _ x _ | assign _ x _ | discard x _ | ret x _ => exact Sits.self.left _
  | loop test body _ => exact ((Sits.self.left _).left _).left _
  | cond test yes no _ =>
    cases no with
    | none => exact (Sits.self.left _).left _
    | some no => exact (((Sits.self.left _).left _).left _).left _

theorem Block.operand_sits {b : Block} (hwidth : Block.width b < addressSpace) {address : Nat}
    {site : Nat × Operand} (hsite : site ∈ operandSites (Block.sites address b)) :
    ∃ h, Sits address (Block.assemble l b) site.1 h (site.2.assemble l) := by
  obtain ⟨⟨c, s⟩, hs, hsite⟩ := List.mem_flatMap.mp hsite
  obtain ⟨h, hoperand⟩ := s.operand.sits l c hsite
  exact ⟨h, ((Block.sits l b hwidth address hs).trans (s.sits_operand l c)).trans hoperand⟩

end Trees

end Wordcode
