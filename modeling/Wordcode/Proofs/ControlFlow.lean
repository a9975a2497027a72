import Wordcode.Code.ControlFlow
import Wordcode.Proofs.Landing
import Wordcode.Proofs.NormalForm
import Wordcode.Proofs.Tiling

/-!
Where control can go. Main statement: the check accepts the image of every program, and every call
there passes as many arguments as the body it leads to takes.
-/

namespace Wordcode

section Traversal

variable {α β ε : Type}

theorem bind_eq_ok_iff {x : Except ε α} {k : α → Except ε β} {b : β} :
    x >>= k = .ok b ↔ ∃ a, x = .ok a ∧ k a = .ok b := by
  cases x with
  | error e => exact ⟨nofun, nofun⟩
  | ok a => exact ⟨fun h => ⟨a, rfl, h⟩, fun ⟨_, heq, h⟩ => by cases heq; exact h⟩

theorem mapM_eq_ok_iff {f : α → Except ε β} {xs : List α} {ys : List β} :
    xs.mapM f = .ok ys ↔ xs.map f = ys.map .ok := by
  induction xs generalizing ys with
  | nil => cases ys <;> simp [pure, Except.pure]
  | cons x xs ih =>
    rw [List.mapM_cons, bind_eq_ok_iff, List.map_cons]
    constructor
    · rintro ⟨y, hy, hrest⟩
      obtain ⟨rest, hxs, hys⟩ := bind_eq_ok_iff.mp hrest
      cases hys
      rw [List.map_cons, hy, ih.mp hxs]
    · intro h
      cases ys with
      | nil => cases h
      | cons y ys =>
        obtain ⟨hy, hrest⟩ := List.cons.inj h
        exact ⟨y, hy, bind_eq_ok_iff.mpr ⟨ys, ih.mpr hrest, rfl⟩⟩

theorem forM_eq_ok_iff {f : α → Except ε Unit} {xs : List α} :
    xs.forM f = .ok () ↔ ∀ x ∈ xs, f x = .ok () := by
  induction xs with
  | nil => exact ⟨fun _ => nofun, fun _ => rfl⟩
  | cons x xs ih =>
    rw [List.forall_mem_cons, ← ih]
    exact bind_eq_ok_iff.trans ⟨fun ⟨_, hx, hxs⟩ => ⟨hx, hxs⟩, fun ⟨hx, hxs⟩ => ⟨(), hx, hxs⟩⟩

/-- A list without errors. -/
theorem exists_map_ok {xs : List (Except ε α)} (h : ∀ e, .error e ∉ xs) :
    ∃ ys : List α, xs = ys.map .ok := by
  induction xs with
  | nil => exact ⟨[], rfl⟩
  | cons x xs ih =>
    obtain ⟨ys, rfl⟩ := ih fun e he => h e (List.mem_cons_of_mem x he)
    cases x with
    | error e => exact absurd List.mem_cons_self (h e)
    | ok y => exact ⟨y :: ys, rfl⟩

theorem mem_map_ok {ys : List α} {y : α} : (.ok y : Except ε α) ∈ ys.map .ok ↔ y ∈ ys := by
  simp

end Traversal

namespace Image

variable {im : Image} {a n : Nat} {i : Instruction} {b : Body}

def Admits (im : Image) : Instruction → Prop
  | .call _ target => ∃ entry, target.toIndex? = some entry ∧ (im.bodyAt? entry).isSome = true
  | _ => True

theorem checkCall_eq_ok_iff : im.checkCall (.ok (a, i)) = .ok n ↔ a = n ∧ im.Admits i := by
  cases i with
  | call argc target =>
    simp only [checkCall, Admits]
    cases target.toIndex? with
    | none => simp
    | some entry => by_cases hbody : (im.bodyAt? entry).isSome = true <;> simp [hbody]
  | _ => simp [checkCall, Admits]

theorem checkJump_eq_ok_iff {boundaries : List Nat} {site : JumpSite} :
    im.checkJump boundaries site = .ok () ↔
      ∃ n b, site.target.toIndex? = some n ∧ im.enclosing? site.address = some b ∧
        n ∈ boundaries ∧ (n = im.code.size ∨ b.contains n = true) := by
  unfold checkJump
  cases site.target.toIndex? with
  | none => simp
  | some n =>
    cases im.enclosing? site.address with
    | none => by_cases hn : n ∈ boundaries <;> simp [hn]
    | some b => by_cases hn : n ∈ boundaries <;> simp [hn, ← Decidable.or_iff_not_imp_left]

theorem mapM_checkCall_eq_ok_iff {placed : List (Nat × Instruction)} {addresses : List Nat} :
    (placed.map .ok).mapM im.checkCall = .ok addresses ↔
      placed.map Prod.fst = addresses ∧ ∀ a i, (a, i) ∈ placed → im.Admits i := by
  rw [mapM_eq_ok_iff]
  induction placed generalizing addresses with
  | nil => cases addresses <;> simp
  | cons first placed ih =>
    obtain ⟨a, i⟩ := first
    cases addresses with
    | nil => simp
    | cons n addresses =>
      simp only [List.map_cons, List.cons.injEq, checkCall_eq_ok_iff, ih]
      grind

theorem jumpSites_of_decodes {placed : List (Nat × Instruction)}
    (h : im.instructions = placed.map .ok) :
    im.jumpSites = .ok (placed.filterMap fun (address, i) =>
      (i.jumpTarget address).map fun target =>
        { address, target, conditional := i.isConditional }) := by
  have hplaced : im.instructions.mapM id = .ok placed :=
    mapM_eq_ok_iff.mpr (by rw [List.map_id, h])
  rw [jumpSites, hplaced]
  rfl

/-- Where control can go in an image. A jump stays in the first body that it lies in. -/
structure Controlled (im : Image) : Prop where
  decodes : ∀ e, .error e ∉ im.instructions
  calls : ∀ a i, .ok (a, i) ∈ im.instructions → im.Admits i
  jumps : ∀ a i target, .ok (a, i) ∈ im.instructions → i.jumpTarget a = some target →
    ∃ n b, target.toIndex? = some n ∧ im.enclosing? a = some b ∧
      (n = im.code.size ∨ b.contains n = true ∧ ∃ j, .ok (n, j) ∈ im.instructions)

/-- The check of a stream that decodes. -/
theorem checkControlFlow_of_decodes {placed : List (Nat × Instruction)}
    (h : im.instructions = placed.map .ok) :
    im.checkControlFlow = .ok () ↔
      (∀ a i, (a, i) ∈ placed → im.Admits i) ∧
      ∀ a i target, (a, i) ∈ placed → i.jumpTarget a = some target →
        ∃ n b, target.toIndex? = some n ∧ im.enclosing? a = some b ∧
          n ∈ placed.map Prod.fst ++ [im.code.size] ∧
          (n = im.code.size ∨ b.contains n = true) := by
  rw [checkControlFlow, jumpSites_of_decodes h, h, bind_eq_ok_iff]
  simp only [mapM_checkCall_eq_ok_iff, and_assoc, exists_eq_left']
  refine and_congr_right fun _ => forM_eq_ok_iff.trans ?_
  simp only [checkJump_eq_ok_iff]
  constructor
  · intro hsites a i target hmem htarget
    exact hsites ⟨a, target, i.isConditional⟩
      (List.mem_filterMap.mpr ⟨(a, i), hmem, by simp only [htarget, Option.map_some]⟩)
  · intro hjumps site hsite
    obtain ⟨⟨a, i⟩, hmem, hmap⟩ := List.mem_filterMap.mp hsite
    obtain ⟨target, htarget, rfl⟩ := Option.map_eq_some_iff.mp hmap
    exact hjumps a i target hmem htarget

/-- The check decides where control can go. -/
theorem checkControlFlow_eq_ok_iff : im.checkControlFlow = .ok () ↔ im.Controlled := by
  constructor
  · intro h
    -- The calls are checked first, and no error passes there.
    have hdecodes : ∀ e, .error e ∉ im.instructions := by
      intro e he
      obtain ⟨addresses, haddresses, -⟩ := bind_eq_ok_iff.mp h
      have hmem := List.mem_map_of_mem (f := im.checkCall) he
      rw [mapM_eq_ok_iff.mp haddresses] at hmem
      simp [checkCall] at hmem
    obtain ⟨placed, hplaced⟩ := exists_map_ok hdecodes
    obtain ⟨hcalls, hjumps⟩ := (checkControlFlow_of_decodes hplaced).mp h
    refine ⟨hdecodes, ?_, ?_⟩
    · intro a i hmem
      rw [hplaced, mem_map_ok] at hmem
      exact hcalls a i hmem
    · intro a i target hmem htarget
      rw [hplaced, mem_map_ok] at hmem
      obtain ⟨n, b, hn, hb, hboundary, hstays⟩ := hjumps a i target hmem htarget
      refine ⟨n, b, hn, hb, ?_⟩
      -- Other boundaries than the end are addresses of instructions.
      grind
  · rintro ⟨hdecodes, hcalls, hjumps⟩
    obtain ⟨placed, hplaced⟩ := exists_map_ok hdecodes
    rw [hplaced] at hcalls hjumps
    simp only [mem_map_ok] at hcalls hjumps
    refine (checkControlFlow_of_decodes hplaced).mpr ⟨hcalls, ?_⟩
    intro a i target hmem htarget
    obtain ⟨n, b, hn, hb, hstays⟩ := hjumps a i target hmem htarget
    refine ⟨n, b, hn, hb, ?_⟩
    grind

def Has (im : Image) (b : Body) (a : Nat) (i : Instruction) : Prop :=
  .ok (a, i) ∈ sweep im.code b.start b.stop

theorem Fills.has_iff {is : List Instruction} (h : im.Fills b is) :
    im.Has b a i ↔ (a, i) ∈ Instruction.place b.start is := by
  rw [Has, h.decodes, mem_map_ok]

/-- A body that control leaves by calls, by returns and to the end of the stream only. -/
structure Closed (im : Image) (b : Body) : Prop where
  decodes : ∀ e, .error e ∉ sweep im.code b.start b.stop
  first : ∃ i, im.Has b b.start i
  inside : ∀ a i, im.Has b a i → b.start ≤ a ∧ a + i.width ≤ b.stop
  next : ∀ a i, im.Has b a i → (∃ offset, i = .jump offset) ∨ ∃ j, im.Has b (a + i.width) j
  lands : ∀ a i target, im.Has b a i → i.jumpTarget a = some target →
    ∃ n, target.toIndex? = some n ∧ (n = im.code.size ∨ ∃ j, im.Has b n j)
  calls : ∀ a argc target, im.Has b a (.call argc target) →
    ∃ b' ∈ im.bodies, target.toIndex? = some b'.start ∧ argc.toIndex? = some b'.arity

structure Sealed (im : Image) : Prop where
  tiles : Tiles 0 im.code.size im.bodies
  swept : im.instructions = im.bodies.flatMap fun b => sweep im.code b.start b.stop
  closed : ∀ b ∈ im.bodies, im.Closed b

namespace Sealed

theorem mem_instructions (h : im.Sealed) :
    .ok (a, i) ∈ im.instructions ↔ ∃ b ∈ im.bodies, im.Has b a i := by
  rw [h.swept, List.mem_flatMap]
  rfl

theorem bodyAt? (h : im.Sealed) (hb : b ∈ im.bodies) : im.bodyAt? b.start = some b :=
  h.tiles.find?_start hb

theorem contains (h : im.Sealed) (hb : b ∈ im.bodies) (hi : im.Has b a i) :
    b.contains a = true := by
  obtain ⟨hle, hlt⟩ := (h.closed b hb).inside a i hi
  have hpos := i.width_pos
  exact Body.contains_iff.mpr ⟨hle, by omega⟩

theorem controlled (h : im.Sealed) : im.Controlled := by
  refine ⟨?_, ?_, ?_⟩
  · intro e he
    rw [h.swept] at he
    obtain ⟨b, hb, he⟩ := List.mem_flatMap.mp he
    exact (h.closed b hb).decodes e he
  · intro a i hi
    obtain ⟨b, hb, hi⟩ := h.mem_instructions.mp hi
    cases i with
    | call argc target =>
      obtain ⟨b', hb', htarget, -⟩ := (h.closed b hb).calls a argc target hi
      exact ⟨b'.start, htarget, by rw [h.bodyAt? hb']; rfl⟩
    | _ => trivial
  · intro a i target hi htarget
    obtain ⟨b, hb, hi⟩ := h.mem_instructions.mp hi
    obtain ⟨n, hn, hlands⟩ := (h.closed b hb).lands a i target hi htarget
    refine ⟨n, b, hn, enclosing?_of_contains h.tiles hb (h.contains hb hi), hlands.imp_right ?_⟩
    rintro ⟨j, hj⟩
    exact ⟨h.contains hb hj, j, h.mem_instructions.mpr ⟨b, hb, hj⟩⟩

end Sealed

def Matched (im : Image) : Prop :=
  ∀ address argc target, .ok (address, .call argc target) ∈ im.instructions →
    ∃ entry b, target.toIndex? = some entry ∧ im.bodyAt? entry = some b ∧
      argc.toIndex? = some b.arity

theorem Sealed.matched (h : im.Sealed) : im.Matched := by
  intro a argc target hi
  obtain ⟨b, hb, hi⟩ := h.mem_instructions.mp hi
  obtain ⟨b', hb', htarget, hargc⟩ := (h.closed b hb).calls a argc target hi
  exact ⟨b'.start, b', htarget, h.bodyAt? hb', hargc⟩

end Image

namespace Program

variable {p : Program} {im : Image} {b : Body} {a : Nat} {i : Instruction}

section Bodies

variable (hc : p.compile = .ok im) (hsize : im.code.size < addressSpace) (hb : b ∈ im.bodies)

include hc hb

theorem inside_of_compile (hi : im.Has b a i) : b.start ≤ a ∧ a + i.width ≤ b.stop := by
  obtain ⟨f, -, -, hfills⟩ := exists_fills hc hb
  have hle := Instruction.place_le (hfills.has_iff.mp hi)
  rwa [hfills.width] at hle

include hsize

theorem first_of_compile : ∃ i, im.Has b b.start i := by
  obtain ⟨inner, offset, hfills, -⟩ := framed_of_compile hc hsize hb
  exact ⟨_, hfills.has_iff.mpr List.mem_cons_self⟩

theorem next_of_compile (hi : im.Has b a i) :
    (∃ offset, i = .jump offset) ∨ ∃ j, im.Has b (a + i.width) j := by
  obtain ⟨inner, offset, hfills, -⟩ := framed_of_compile hc hsize hb
  rcases Instruction.place_next (hfills.has_iff.mp hi) with hlast | ⟨j, hj⟩
  · rw [List.getLast?_concat] at hlast
    exact Or.inl ⟨offset, (Option.some.inj hlast).symm⟩
  · exact Or.inr ⟨j, hfills.has_iff.mpr hj⟩

theorem jumps_of_compile {offset : Word} (hi : im.Has b a i) (hoffset : i.offset? = some offset) :
    ∃ n, (n = im.code.size ∨ ∃ j, im.Has b n j) ∧ n ≤ im.code.size ∧
      ((a + 1 : Nat) : Int) + offset.toInt = n ∧ i.jumpTarget a = some (.ofNat n) := by
  have hstop := ((tiles_of_compile hc).bounds hb).2.2
  have hinside := inside_of_compile hc hb hi
  have hwidth := i.width_pos
  obtain ⟨f, -, -, hfills⟩ := exists_fills hc hb
  have hle : b.start + f.width ≤ im.code.size := by
    rw [← Function.widthAll_assemble p.target b.start im.code.size, hfills.width]
    exact hstop
  have hlands := f.lands p.target hsize hle
  simp only [← hfills.has_iff] at hlands
  have hstops : ∀ n, (n = im.code.size ∨ ∃ j, im.Has b n j) → n ≤ im.code.size := by
    rintro n (rfl | ⟨j, hj⟩)
    · exact Nat.le_refl _
    · have hend := inside_of_compile hc hb hj
      omega
  obtain ⟨n, hn, heq, htarget⟩ := hlands.jumpTarget (hfills.has_iff.mp hi) hoffset (by omega)
    fun n hn => Nat.lt_of_le_of_lt (hstops n hn) hsize
  exact ⟨n, hn, hstops n hn, heq, htarget⟩

theorem lands_of_compile {target : Word} (hi : im.Has b a i)
    (ht : i.jumpTarget a = some target) :
    ∃ n, target.toIndex? = some n ∧ (n = im.code.size ∨ ∃ j, im.Has b n j) := by
  obtain ⟨offset, hoffset⟩ := Instruction.offset?_of_jumpTarget ht
  obtain ⟨n, hn, hle, -, htarget⟩ := jumps_of_compile hc hsize hb hi hoffset
  rw [htarget] at ht
  cases ht
  exact ⟨n, Word.toIndex?_ofNat (Nat.lt_of_le_of_lt hle hsize), hn⟩

theorem calls_of_compile {argc target : Word} (hi : im.Has b a (.call argc target)) :
    ∃ b' ∈ im.bodies, target.toIndex? = some b'.start ∧ argc.toIndex? = some b'.arity := by
  obtain ⟨he, -⟩ := compile_eq_ok hc
  obtain ⟨-, -, hstop⟩ := (tiles_of_compile hc).bounds hb
  obtain ⟨f, hf, hplaced, hfills⟩ := exists_fills hc hb
  have hwidth : f.width ≤ im.code.size := by
    have hfilled := hfills.width
    rw [← Function.widthAll_assemble p.target b.start im.code.size]
    omega
  obtain ⟨before, after, heq, -⟩ := Instruction.mem_place.mp (hfills.has_iff.mp hi)
  have hmem : Instruction.call argc target ∈ f.assemble p.target b.start im.code.size := by
    rw [heq]
    exact List.mem_append_right _ List.mem_cons_self
  obtain ⟨name, g, hg, hcount, rfl, rfl⟩ :=
    Function.fits (errors_body he hf) hwidth p.target b.start im.code.size _ hmem
  -- The name stands for the body that the layout puts at its address.
  obtain ⟨k, htarget, hk⟩ := target_eq_start hg
  have hbody := placed_mem_bodies hc hk
  have hstart := (tiles_of_compile hc).bounds hbody
  refine ⟨_, hbody, ?_, Word.toIndex?_ofNat (by omega)⟩
  rw [htarget]
  exact Word.toIndex?_ofNat (by simp only [Function.placed] at hstart; omega)

end Bodies

/-- Control stays in the bodies of the image of a program. -/
theorem sealed_of_compile (hc : p.compile = .ok im) (hsize : im.code.size < addressSpace) :
    im.Sealed := by
  refine ⟨tiles_of_compile hc, instructions_of_compile hc, fun b hb => ?_⟩
  refine ⟨?_, first_of_compile hc hsize hb, fun _ _ => inside_of_compile hc hb,
    fun _ _ => next_of_compile hc hsize hb, fun _ _ _ => lands_of_compile hc hsize hb,
    fun _ _ _ => calls_of_compile hc hsize hb⟩
  intro e he
  obtain ⟨f, -, -, hfills⟩ := exists_fills hc hb
  rw [hfills.decodes] at he
  simp at he

/-- The image of a program passes the check of where control can go, and its calls pass the right
number of arguments. The same holds of the image of its normal form. -/
theorem compile_controlled (p : Program) (im : Image) (hc : p.compile = .ok im)
    (hsize : im.code.size < addressSpace) :
    (im.checkControlFlow = .ok () ∧ im.Matched) ∧
      ∃ im', p.normalize.compile = .ok im' ∧ im'.checkControlFlow = .ok () ∧ im'.Matched := by
  have hsealed := sealed_of_compile hc hsize
  have hcheck := Image.checkControlFlow_eq_ok_iff.mpr hsealed.controlled
  have hnormal : p.normalize.compile = p.compile := by
    rw [compile, emission_normalize]
    rfl
  exact ⟨⟨hcheck, hsealed.matched⟩, im, hnormal.trans hc, hcheck, hsealed.matched⟩

theorem compile_controlled_gcd :
    ∃ im, Sample.greatestCommonDivisor.compile = .ok im ∧ im.code.size < addressSpace ∧
      (im.checkControlFlow = .ok () ∧ im.Matched) ∧
      ∃ im', Sample.greatestCommonDivisor.normalize.compile = .ok im' ∧
        im'.checkControlFlow = .ok () ∧ im'.Matched := by
  have hsize : Sample.greatestCommonDivisor.emission.patched.size < addressSpace := by decide
  exact ⟨_, rfl, hsize, compile_controlled Sample.greatestCommonDivisor _ rfl hsize⟩

end Program

end Wordcode
