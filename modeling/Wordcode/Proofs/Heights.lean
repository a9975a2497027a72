import Wordcode.Proofs.Assembly

/-!
How many temporaries code needs. The code of an operand leaves one word more than it found, that of
a statement starts and ends without temporaries, and neither rises above the height of its tree.
-/

namespace Wordcode

mutual
def Operand.height : Operand → Nat
  | .int _ => 1
  | .var _ _ => 1
  | .unary _ x => x.height
  | .chain first rest => max first.height (Links.height rest)
  | .group first rest => max first.height (Links.height rest)
  | .call _ args _ => max 1 (Operand.heightAll 0 args)
def Links.height : Links → Nat
  | [] => 0
  | (_, x) :: rest => max (1 + x.height) (Links.height rest)
def Operand.heightAll : Nat → List Operand → Nat
  | _, [] => 0
  | i, x :: rest => max (i + x.height) (Operand.heightAll (i + 1) rest)
end

mutual
def Statement.height : Statement → Nat
  | .declare _ x _ => x.height
  | .assign _ x _ => x.height
  | .cond test yes none _ => max test.height (Block.height yes)
  | .cond test yes (some no) _ => max test.height (max (Block.height yes) (Block.height no))
  | .loop test body _ => max test.height (Block.height body)
  | .discard x _ => x.height
  | .ret x _ => x.height
def Block.height : Block → Nat
  | [] => 0
  | s :: rest => max s.height (Block.height rest)
end

theorem Operand.one_le_height (x : Operand) : 1 ≤ x.height := by
  cases x with
  | int value => exact Nat.le_refl 1
  | var name span => exact Nat.le_refl 1
  | unary op x => exact x.one_le_height
  | chain first rest => exact Nat.le_trans first.one_le_height (Nat.le_max_left _ _)
  | group first rest => exact Nat.le_trans first.one_le_height (Nat.le_max_left _ _)
  | call name args span => exact Nat.le_max_left _ _

namespace Instruction

def takes : Instruction → Nat
  | unary _ | store _ | jumpIfFalse _ | ret | pop => 1
  | binary _ => 2
  | call argc _ => argc.toIndex?.getD 0
  | load _ | int _ | jump _ | stackAdjust _ => 0

def gives : Instruction → Nat
  | unary _ | binary _ | load _ | int _ | call _ _ => 1
  | store _ | jumpIfFalse _ | jump _ | stackAdjust _ | ret | pop => 0

def rise (h : Nat) (i : Instruction) : Nat := h - i.takes + i.gives

def level (h : Nat) (is : List Instruction) : Nat := is.foldl rise h

@[simp] theorem level_append (h : Nat) (is js : List Instruction) :
    level h (is ++ js) = level (level h is) js := List.foldl_append

theorem level_concat (h : Nat) (is : List Instruction) (i : Instruction) :
    level h (is ++ [i]) = level h is - i.takes + i.gives := level_append h is [i]

/-- What is asked of an instruction that finds `h` temporaries, `low` of which are not its own.
None of them is left where a jump leads, and the slots stay as many as they are. -/
structure Suits (low h : Nat) (i : Instruction) : Prop where
  takes : low + i.takes ≤ h
  jumps : i.offset? ≠ none → i.rise h = 0
  slots : i.opcode ≠ .stackAdjust

/-- The instructions lead from one height to another, and never below `low` or above `high`. -/
inductive Climbs (low high : Nat) : Nat → List Instruction → Nat → Prop where
  | nil {h : Nat} (le : h ≤ high) : Climbs low high h [] h
  | cons {h h' : Nat} {i : Instruction} {is : List Instruction} (le : h ≤ high)
      (suits : i.Suits low h) (rest : Climbs low high (i.rise h) is h') :
      Climbs low high h (i :: is) h'

namespace Climbs

variable {low low' high a b c : Nat} {i : Instruction} {is js : List Instruction}

theorem single (suits : i.Suits low a) (rise : i.rise a = b) (le : a ≤ high) (le' : b ≤ high) :
    Climbs low high a [i] b := .cons le suits (by rw [rise]; exact .nil le')

theorem append (h : Climbs low high a is b) (h' : Climbs low high b js c) :
    Climbs low high a (is ++ js) c := by
  induction h with
  | nil => exact h'
  | cons le suits _ ih => exact .cons le suits (ih h')

theorem lower (h : Climbs low high a is b) (hle : low' ≤ low) : Climbs low' high a is b := by
  induction h with
  | nil le => exact .nil le
  | cons le suits _ ih =>
    exact .cons le ⟨Nat.le_trans (Nat.add_le_add_right hle _) suits.takes, suits.jumps,
      suits.slots⟩ ih

theorem level_eq (h : Climbs low high a is b) : level a is = b := by
  induction h with
  | nil => rfl
  | cons _ _ _ ih => exact ih

theorem stop_le (h : Climbs low high a is b) : b ≤ high := by
  induction h with
  | nil le => exact le
  | cons _ _ _ ih => exact ih

theorem level_le {before after : List Instruction} (h : Climbs low high a (before ++ after) b) :
    level a before ≤ high := by
  induction before generalizing a with
  | nil => cases h <;> assumption
  | cons j before ih =>
    cases h with
    | cons _ _ rest => exact ih rest

theorem low_le {before after : List Instruction} (h : Climbs low high a (before ++ after) b)
    (hle : low ≤ a) : low ≤ level a before := by
  induction before generalizing a with
  | nil => exact hle
  | cons j before ih =>
    cases h with
    | cons _ suits rest =>
      have htakes := suits.takes
      refine ih rest ?_
      unfold rise
      omega

/-- Each instruction finds the height that those before it lead to. -/
theorem suits {before after : List Instruction}
    (h : Climbs low high a (before ++ i :: after) b) : i.Suits low (level a before) := by
  induction before generalizing a with
  | nil =>
    cases h with
    | cons _ suits _ => exact suits
  | cons j before ih =>
    cases h with
    | cons _ _ rest => exact ih rest

end Climbs

/-- Instructions that are no jumps. -/
theorem suits_plain {low h : Nat} {i : Instruction} (takes : low + i.takes ≤ h)
    (straight : i.offset? = none) (slots : i.opcode ≠ .stackAdjust) : i.Suits low h :=
  ⟨takes, fun hjump => absurd straight hjump, slots⟩

end Instruction

section Trees

open Instruction (Climbs level suits_plain)

variable {high : Nat} (l : Linkage)

mutual
theorem Operand.climbs : (x : Operand) → x.width < addressSpace → (h : Nat) →
    h + x.height ≤ high → Climbs h high h (x.assemble l) (h + 1)
  | .int _, _, h, hle | .var _ _, _, h, hle =>
    .single (suits_plain (Nat.le_refl h) rfl nofun) rfl (Nat.le_of_succ_le hle) hle
  | .unary op x, hwidth, h, hle => by
    have hone := x.one_le_height
    rw [Operand.height] at hle
    refine (x.climbs (Nat.lt_of_succ_lt hwidth) h hle).append ?_
    exact .single (suits_plain (Nat.le_refl _) rfl (Opcode.unary_ne op rfl)) rfl (by omega)
      (by omega)
  | .chain first rest, hwidth, h, hle | .group first rest, hwidth, h, hle => by
    have hone := first.one_le_height
    simp only [Operand.height] at hle
    simp only [Operand.width] at hwidth
    exact (first.climbs (by omega) h (by omega)).append
      (Links.climbs rest (by omega) h (by omega) (by omega))
  | .call name args span, hwidth, h, hle => by
    have hcount := Operand.two_mul_length_le args
    simp only [Operand.height] at hle
    simp only [Operand.width] at hwidth
    have hargc : Word.toIndex? (.ofNat args.length) = some args.length :=
      Word.toIndex?_ofNat (by omega)
    have hargs := Operand.climbsAll args (by omega) h 0 (by omega) (by omega)
    rw [Nat.add_zero] at hargs
    refine hargs.append (.single (suits_plain ?_ rfl nofun) ?_ hargs.stop_le (by omega))
    · rw [Instruction.takes, hargc]
      exact Nat.le_refl _
    · rw [Instruction.rise, Instruction.takes, hargc, Option.getD_some, Nat.add_sub_cancel]
      rfl
theorem Links.climbs : (rest : Links) → Links.width rest < addressSpace → (h : Nat) →
    h + 1 ≤ high → h + Links.height rest ≤ high →
    Climbs h high (h + 1) (Links.assemble l rest) (h + 1)
  | [], _, _, hstart, _ => .nil hstart
  | (op, x) :: rest, hwidth, h, hstart, hle => by
    have hone := x.one_le_height
    simp only [Links.height] at hle
    simp only [Links.width] at hwidth
    have hx := (x.climbs (by omega) (h + 1) (by omega)).lower (Nat.le_succ h)
    refine (hx.append ?_).append (Links.climbs rest (by omega) h hstart (by omega))
    exact .single (suits_plain (Nat.le_refl _) rfl (Opcode.binary_ne op rfl)) rfl (by omega)
      hstart
theorem Operand.climbsAll : (xs : List Operand) → Operand.widthAll xs < addressSpace →
    (h i : Nat) → h + i ≤ high → h + Operand.heightAll i xs ≤ high →
    Climbs h high (h + i) (Operand.assembleAll l xs) (h + i + xs.length)
  | [], _, _, _, hstart, _ => .nil hstart
  | x :: rest, hwidth, h, i, hstart, hle => by
    have hone := x.one_le_height
    simp only [Operand.heightAll] at hle
    simp only [Operand.widthAll] at hwidth
    have hx := (x.climbs (by omega) (h + i) (by omega)).lower (Nat.le_add_right h i)
    have hrest := Operand.climbsAll rest (by omega) h (i + 1) (by omega) (by omega)
    rw [List.length_cons, Nat.add_comm rest.length 1, ← Nat.add_assoc]
    exact hx.append hrest
end

/-- An operand whose word the next instruction takes. -/
theorem Operand.climbs_taken (x : Operand) (hwidth : x.width < addressSpace)
    (hle : x.height ≤ high) {i : Instruction} (htakes : i.takes = 1) (hgives : i.gives = 0)
    (hslots : i.opcode ≠ .stackAdjust) : Climbs 0 high 0 (x.assemble l ++ [i]) 0 := by
  have hone := x.one_le_height
  have hrise : i.rise 1 = 0 := by rw [Instruction.rise, htakes, hgives]
  have hx : Climbs 0 high 0 (x.assemble l) 1 := x.climbs l hwidth 0 (by omega)
  exact hx.append (.single ⟨by omega, fun _ => hrise, hslots⟩ hrise (by omega) (by omega))

/-- The code of a test, with the conditional jump behind it. -/
theorem Operand.climbs_test (test : Operand) (hwidth : test.width < addressSpace)
    (hle : test.height ≤ high) (offset : Word) :
    Climbs 0 high 0 (test.assemble l ++ [.jumpIfFalse offset]) 0 :=
  test.climbs_taken l hwidth hle rfl rfl nofun

theorem climbs_jump (offset : Word) : Climbs 0 high 0 [.jump offset] 0 :=
  .single ⟨Nat.le_refl 0, fun _ => rfl, nofun⟩ rfl (Nat.zero_le _) (Nat.zero_le _)

mutual
theorem Statement.climbs : (s : Statement) → s.width < addressSpace → s.height ≤ high →
    Climbs 0 high 0 (s.assemble l) 0
  | .declare _ x _, hwidth, hle | .assign _ x _, hwidth, hle => by
    simp only [Statement.width] at hwidth
    exact x.climbs_taken l (by omega) hle rfl rfl nofun
  | .discard x _, hwidth, hle | .ret x _, hwidth, hle =>
    x.climbs_taken l (Nat.lt_of_succ_lt hwidth) hle rfl rfl nofun
  | .cond test yes none _, hwidth, hle => by
    simp only [Statement.width] at hwidth
    simp only [Statement.height] at hle
    exact (test.climbs_test l (by omega) (by omega) _).append
      (Block.climbs yes (by omega) (by omega))
  | .cond test yes (some no) _, hwidth, hle => by
    simp only [Statement.width] at hwidth
    simp only [Statement.height] at hle
    exact (((test.climbs_test l (by omega) (by omega) _).append
      (Block.climbs yes (by omega) (by omega))).append (climbs_jump _)).append
      (Block.climbs no (by omega) (by omega))
  | .loop test body _, hwidth, hle => by
    simp only [Statement.width] at hwidth
    simp only [Statement.height] at hle
    exact ((test.climbs_test l (by omega) (by omega) _).append
      (Block.climbs body (by omega) (by omega))).append (climbs_jump _)
theorem Block.climbs : (b : Block) → Block.width b < addressSpace → Block.height b ≤ high →
    Climbs 0 high 0 (Block.assemble l b) 0
  | [], _, _ => .nil (Nat.zero_le _)
  | s :: rest, hwidth, hle => by
    simp only [Block.width] at hwidth
    simp only [Block.height] at hle
    exact (s.climbs (by omega) (by omega)).append (Block.climbs rest (by omega) (by omega))
end

variable {l}

theorem Operand.level_test {test : Operand} (hwidth : test.width < addressSpace) {offset : Word} :
    level 0 (test.assemble l ++ [.jumpIfFalse offset]) = 0 :=
  (test.climbs_test l hwidth (Nat.le_refl _) offset).level_eq

theorem Statement.level_assemble {s : Statement} (hwidth : s.width < addressSpace) :
    level 0 (s.assemble l) = 0 := (s.climbs l hwidth (Nat.le_refl _)).level_eq

theorem Block.level_assemble {b : Block} (hwidth : Block.width b < addressSpace) :
    level 0 (Block.assemble l b) = 0 := (Block.climbs l b hwidth (Nat.le_refl _)).level_eq

/-- The code of a test and of the first branch, up to the second one. -/
theorem Operand.level_branch {test : Operand} {yes : Block}
    (hwidth : test.width + Block.width yes < addressSpace) {offset offset' : Word} :
    level 0 (test.assemble l ++ [.jumpIfFalse offset] ++ Block.assemble l yes
      ++ [.jump offset']) = 0 := by
  rw [Instruction.level_append, Instruction.level_append, Operand.level_test (by omega),
    Block.level_assemble (by omega)]
  rfl

end Trees

namespace Function

def interior (target : String → Nat) (start stop : Nat) (f : Function) : List Instruction :=
  Block.assemble ⟨f.names, target⟩ f.body ++ [f.exit start stop]

/-- A body starts and ends without temporaries. -/
theorem climbs (target : String → Nat) (start stop : Nat) {f : Function}
    (hwidth : f.width < addressSpace) :
    Instruction.Climbs 0 (Block.height f.body) 0 (f.interior target start stop) 0 := by
  rw [width] at hwidth
  exact (Block.climbs _ f.body (by omega) (Nat.le_refl _)).append (climbs_jump _)

end Function

end Wordcode
