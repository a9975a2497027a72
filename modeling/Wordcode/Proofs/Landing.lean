import Wordcode.Proofs.Heights

/-!
Where jumps lead: to an instruction of the same construct, right behind it, or to the end of the
stream. No temporaries are left there.
-/

namespace Wordcode

/-- Of the instructions that start at `address` the one at `a` is `i`, and it finds `h`
temporaries. -/
def Finds (address : Nat) (is : List Instruction) (a h : Nat) (i : Instruction) : Prop :=
  ∃ before after, is = before ++ i :: after ∧ a = address + Instruction.widthAll before ∧
    Instruction.level 0 before = h

/-- An address between two of the instructions that start at `address`, or at one of their ends,
where no temporaries are left. -/
def Boundary (address : Nat) (is : List Instruction) (n : Nat) : Prop :=
  ∃ before after, is = before ++ after ∧ n = address + Instruction.widthAll before ∧
    Instruction.level 0 before = 0

def Lands (stops : Nat → Prop) (address : Nat) (is : List Instruction) : Prop :=
  ∀ a i offset, (a, i) ∈ Instruction.place address is → i.offset? = some offset →
    ∃ n, stops n ∧ ((a + 1 : Nat) : Int) + offset.toInt = n

@[simp] theorem Instruction.widthAll_jump (offset : Word) : widthAll [jump offset] = 2 := rfl

@[simp] theorem Instruction.widthAll_jumpIfFalse (offset : Word) :
    widthAll [jumpIfFalse offset] = 2 := rfl

theorem Operand.widthAll_test (l : Linkage) (test : Operand) (offset : Word) :
    Instruction.widthAll (test.assemble l ++ [.jumpIfFalse offset]) = test.width + 2 := by
  simp only [Instruction.widthAll_append, Operand.widthAll_assemble,
    Instruction.widthAll_jumpIfFalse]

theorem Operand.widthAll_branch (l : Linkage) (test : Operand) (yes : Block)
    (offset offset' : Word) :
    Instruction.widthAll (test.assemble l ++ [.jumpIfFalse offset] ++ Block.assemble l yes
      ++ [.jump offset']) = test.width + 2 + Block.width yes + 2 := by
  rw [Instruction.widthAll_append, Instruction.widthAll_append, Operand.widthAll_test,
    Block.widthAll_assemble, Instruction.widthAll_jump]

open Instruction (widthAll place level)

variable {address n a h : Nat} {i : Instruction} {is js : List Instruction}
  {stops stops' : Nat → Prop}

theorem Finds.mem_place (hfinds : Finds address is a h i) : (a, i) ∈ place address is := by
  obtain ⟨before, after, heq, ha, -⟩ := hfinds
  exact Instruction.mem_place.mpr ⟨before, after, heq, ha⟩

/-- The instruction that follows finds the height that this one leaves. -/
theorem Finds.next (hfinds : Finds address is a h i) :
    is.getLast? = some i ∨ ∃ j, Finds address is (a + i.width) (i.rise h) j := by
  obtain ⟨before, after, rfl, rfl, rfl⟩ := hfinds
  cases after with
  | nil => exact Or.inl List.getLast?_concat
  | cons j after =>
    refine Or.inr ⟨j, before ++ [i], after, ?_, ?_, ?_⟩
    · rw [List.append_assoc, List.singleton_append]
    · rw [Instruction.widthAll_append, Nat.add_assoc]
      rfl
    · rw [Instruction.level_append]
      rfl

theorem Boundary.start : Boundary address is address := ⟨[], is, rfl, rfl, rfl⟩

theorem Boundary.stop (h : address + widthAll is = n) (hlevel : level 0 is = 0) :
    Boundary address is n := ⟨is, [], (List.append_nil is).symm, h.symm, hlevel⟩

theorem Boundary.left (h : Boundary address is n) (js : List Instruction) :
    Boundary address (is ++ js) n := by
  obtain ⟨before, after, rfl, rfl, hlevel⟩ := h
  exact ⟨before, after ++ js, List.append_assoc _ _ _, rfl, hlevel⟩

theorem Boundary.right (h : Boundary (address + widthAll is) js n) (hlevel : level 0 is = 0) :
    Boundary address (is ++ js) n := by
  obtain ⟨before, after, rfl, rfl, hbefore⟩ := h
  refine ⟨is ++ before, after, (List.append_assoc _ _ _).symm, ?_, ?_⟩
  · rw [Instruction.widthAll_append, Nat.add_assoc]
  · rw [Instruction.level_append, hlevel, hbefore]

/-- Where more instructions follow, each boundary is the address of one. -/
theorem Boundary.finds (h : Boundary address is n) (hjs : js ≠ []) :
    ∃ i, Finds address (is ++ js) n 0 i := by
  obtain ⟨before, after, rfl, rfl, hlevel⟩ := h
  obtain ⟨i, rest, hcons⟩ :=
    List.exists_cons_of_ne_nil (List.append_ne_nil_of_right_ne_nil after hjs)
  refine ⟨i, before, rest, ?_, rfl, hlevel⟩
  rw [List.append_assoc, hcons]

theorem Lands.mono (h : Lands stops address is) (hstops : ∀ n, stops n → stops' n) :
    Lands stops' address is := by
  intro a i offset hmem hoffset
  obtain ⟨n, hn, heq⟩ := h a i offset hmem hoffset
  exact ⟨n, hstops n hn, heq⟩

theorem Lands.append (h : Lands stops address is) (h' : Lands stops (address + widthAll is) js) :
    Lands stops address (is ++ js) := by
  intro a i offset hmem hoffset
  rw [Instruction.place_append] at hmem
  rcases List.mem_append.mp hmem with hleft | hright
  · exact h a i offset hleft hoffset
  · exact h' a i offset hright hoffset

/-- Where a jump leads, as it is found from its offset. -/
theorem Lands.jumpTarget {offset : Word} (h : Lands stops address is)
    (hmem : (a, i) ∈ place address is) (hoffset : i.offset? = some offset)
    (ha : a + 1 < addressSpace) (hstops : ∀ n, stops n → n < addressSpace) :
    ∃ n, stops n ∧ ((a + 1 : Nat) : Int) + offset.toInt = n ∧ i.jumpTarget a = some (.ofNat n) := by
  obtain ⟨n, hn, heq⟩ := h a i offset hmem hoffset
  exact ⟨n, hn, heq, Instruction.jumpTarget_eq_ofNat hoffset ha (hstops n hn) heq⟩

theorem lands_jump {i : Instruction} {offset : Word} (hi : i.offset? = some offset) (hn : stops n)
    (heq : ((address + 1 : Nat) : Int) + offset.toInt = n) : Lands stops address [i] := by
  intro a j offset' hmem hoffset
  cases List.mem_singleton.mp hmem
  rw [hi] at hoffset
  cases hoffset
  exact ⟨n, hn, heq⟩

/-- Instructions without a jump among them. -/
theorem lands_straight (h : ∀ i ∈ is, i.offset? = none) : Lands stops address is := by
  intro a i offset hmem hoffset
  obtain ⟨before, after, rfl, -⟩ := Instruction.mem_place.mp hmem
  rw [h i (List.mem_append_right before List.mem_cons_self)] at hoffset
  cases hoffset

mutual
/-- Each instruction of an operand leaves a word. -/
theorem Operand.gives_assemble (l : Linkage) : (x : Operand) → ∀ i ∈ x.assemble l, i.gives = 1
  | .int _ | .var _ _ => List.forall_mem_singleton.mpr rfl
  | .unary _ x =>
    List.forall_mem_append.mpr ⟨x.gives_assemble l, List.forall_mem_singleton.mpr rfl⟩
  | .chain first rest | .group first rest =>
    List.forall_mem_append.mpr ⟨first.gives_assemble l, Links.gives_assemble l rest⟩
  | .call _ args _ =>
    List.forall_mem_append.mpr ⟨Operand.gives_assembleAll l args, List.forall_mem_singleton.mpr rfl⟩
theorem Links.gives_assemble (l : Linkage) :
    (rest : Links) → ∀ i ∈ Links.assemble l rest, i.gives = 1
  | [] => nofun
  | (_, x) :: rest => List.forall_mem_append.mpr
    ⟨List.forall_mem_append.mpr ⟨x.gives_assemble l, List.forall_mem_singleton.mpr rfl⟩,
      Links.gives_assemble l rest⟩
theorem Operand.gives_assembleAll (l : Linkage) :
    (xs : List Operand) → ∀ i ∈ Operand.assembleAll l xs, i.gives = 1
  | [] => nofun
  | x :: rest =>
    List.forall_mem_append.mpr ⟨x.gives_assemble l, Operand.gives_assembleAll l rest⟩
end

theorem Instruction.offset?_of_gives (h : i.gives = 1) : i.offset? = none := by
  cases i with
  | jump _ | jumpIfFalse _ => cases h
  | _ => rfl

theorem Operand.straight (l : Linkage) (x : Operand) : ∀ i ∈ x.assemble l, i.offset? = none :=
  fun i hi => Instruction.offset?_of_gives (x.gives_assemble l i hi)

/-- The code of a test, with the conditional jump behind it. -/
theorem lands_test (l : Linkage) (test : Operand) {offset : Word} (hn : stops n)
    (heq : ((address + test.width + 1 : Nat) : Int) + offset.toInt = n) :
    Lands stops address (test.assemble l ++ [.jumpIfFalse offset]) := by
  refine (lands_straight (test.straight l)).append (lands_jump rfl hn ?_)
  rwa [test.widthAll_assemble l]

theorem Statement.boundary_stop (l : Linkage) (s : Statement) (address : Nat)
    (h : s.width < addressSpace) : Boundary address (s.assemble l) (address + s.width) :=
  .stop (by rw [s.widthAll_assemble]) (level_assemble h)

mutual
theorem Statement.lands (l : Linkage) : (s : Statement) → s.width < addressSpace →
    (address : Nat) → Lands (Boundary address (s.assemble l)) address (s.assemble l)
  | .declare _ x _, _, address | .assign _ x _, _, address | .discard x _, _, address
  | .ret x _, _, address =>
    lands_straight
      (List.forall_mem_append.mpr ⟨x.straight l, List.forall_mem_singleton.mpr rfl⟩)
  | .cond test yes none span, h, address => by
    have hstop := Statement.boundary_stop l (.cond test yes none span) address h
    simp only [Statement.width] at h
    refine Lands.append (lands_test l test hstop ?_) ?_
    · exact Word.add_forward (by omega) (by simp only [Statement.width]; omega)
    · exact (Block.lands l yes (by omega) _).mono fun n hn =>
        hn.right (Operand.level_test (by omega))
  | .cond test yes (some no) span, h, address => by
    have hstop := Statement.boundary_stop l (.cond test yes (some no) span) address h
    simp only [Statement.width] at h
    -- A failed test leads to the second branch, behind the jump over it.
    have hno : address + widthAll (test.assemble l
        ++ [.jumpIfFalse (.ofNat (Block.width yes + 3))] ++ Block.assemble l yes
        ++ [.jump (.ofNat (Block.width no + 1))]) =
        address + test.width + 2 + Block.width yes + 2 := by
      rw [Operand.widthAll_branch]
      omega
    have hlevel : level 0 (test.assemble l
        ++ [.jumpIfFalse (.ofNat (Block.width yes + 3))] ++ Block.assemble l yes
        ++ [.jump (.ofNat (Block.width no + 1))]) = 0 := Operand.level_branch (by omega)
    refine Lands.append (Lands.append (Lands.append ?_ ?_) ?_) ?_
    · exact lands_test l test ((Boundary.stop hno hlevel).left _)
        (Word.add_forward (by omega) (by omega))
    · exact (Block.lands l yes (by omega) _).mono fun n hn =>
        ((hn.right (Operand.level_test (by omega))).left _).left _
    · refine lands_jump rfl hstop ?_
      simp only [Instruction.widthAll_append, Operand.widthAll_assemble, Block.widthAll_assemble,
        Instruction.widthAll_jumpIfFalse, Statement.width]
      exact Word.add_forward (by omega) (by omega)
    · exact (Block.lands l no (by omega) _).mono fun n hn => hn.right hlevel
  | .loop test body span, h, address => by
    have hstop := Statement.boundary_stop l (.loop test body span) address h
    simp only [Statement.width] at h
    refine Lands.append (Lands.append (lands_test l test hstop ?_) ?_) ?_
    · exact Word.add_forward (by omega) (by simp only [Statement.width]; omega)
    · exact (Block.lands l body (by omega) _).mono fun n hn =>
        (hn.right (Operand.level_test (by omega))).left _
    · refine lands_jump rfl .start ?_
      simp only [Instruction.widthAll_append, Operand.widthAll_assemble, Block.widthAll_assemble,
        Instruction.widthAll_jumpIfFalse]
      exact Word.add_backward (by omega) (by omega)
theorem Block.lands (l : Linkage) : (b : Block) → Block.width b < addressSpace →
    (address : Nat) → Lands (Boundary address (Block.assemble l b)) address (Block.assemble l b)
  | [], _, _ => lands_straight nofun
  | s :: rest, h, address => by
    rw [Block.width] at h
    refine Lands.append ((s.lands l (by omega) address).mono ?_)
      ((Block.lands l rest (by omega) _).mono ?_)
    · exact fun n hn => hn.left _
    · exact fun n hn => hn.right (Statement.level_assemble (by omega))
end

namespace Function

variable (target : String → Nat) {start stop : Nat} (f : Function) (hstop : stop < addressSpace)
  (hle : start + f.width ≤ stop)

include hstop hle

/-- A jump of a body leads to an instruction behind the first one, which finds no temporaries, or to
the end of the stream. -/
theorem lands_interior :
    Lands (fun n => n = stop ∨ ∃ i, Finds (start + 2) (f.interior target start stop) n 0 i)
      (start + 2) (f.interior target start stop) := by
  rw [width] at hle
  refine Lands.append ((Block.lands _ f.body (by omega) _).mono ?_) ?_
  · intro n hn
    exact Or.inr (hn.finds (List.cons_ne_nil _ _))
  · refine lands_jump rfl (Or.inl rfl) ?_
    rw [Block.widthAll_assemble]
    exact Word.add_forward (by omega) (by omega)

/-- A jump of a body leads to an instruction of the same body or to the end of the stream. -/
theorem lands :
    Lands (fun n => n = stop ∨ ∃ i, (n, i) ∈ place start (f.assemble target start stop)) start
      (f.assemble target start stop) := by
  have hadjust : Lands (fun n => n = stop ∨ ∃ i, (n, i) ∈ place start
      (f.assemble target start stop)) start [.stackAdjust (.ofNat f.names.length)] :=
    lands_straight (List.forall_mem_singleton.mpr rfl)
  refine hadjust.append ((f.lands_interior target hstop hle).mono ?_)
  intro n hn
  exact hn.imp_right fun ⟨i, hi⟩ => ⟨i, List.mem_cons_of_mem _ hi.mem_place⟩

end Function

end Wordcode
