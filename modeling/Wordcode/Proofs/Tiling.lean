import Wordcode.Proofs.Assembly
import Wordcode.Proofs.Emission
import Wordcode.Proofs.ProgramSimulation

/-!
The bodies of an image side by side. Main statement: they fill the stream one after the other, and
each of them decodes by itself.
-/

namespace Wordcode

/-- Bodies that follow each other without a gap from `start` to `stop`, none of them empty. -/
def Tiles : Nat → Nat → List Body → Prop
  | start, stop, [] => start = stop
  | start, stop, b :: rest => b.start = start ∧ b.start < b.stop ∧ Tiles b.stop stop rest

theorem Body.contains_iff {b : Body} {a : Nat} :
    b.contains a = true ↔ b.start ≤ a ∧ a < b.stop := by
  simp [Body.contains]

namespace Tiles

variable {start stop a : Nat} {bs : List Body} {b : Body}

theorem le (h : Tiles start stop bs) : start ≤ stop := by
  induction bs generalizing start with
  | nil => exact Nat.le_of_eq h
  | cons b bs ih =>
    obtain ⟨rfl, hlt, hrest⟩ := h
    exact Nat.le_trans (Nat.le_of_lt hlt) (ih hrest)

theorem bounds (h : Tiles start stop bs) (hb : b ∈ bs) :
    start ≤ b.start ∧ b.start < b.stop ∧ b.stop ≤ stop := by
  induction bs generalizing start with
  | nil => cases hb
  | cons first bs ih =>
    obtain ⟨rfl, hlt, hrest⟩ := h
    rcases List.mem_cons.mp hb with rfl | hb
    · exact ⟨Nat.le_refl _, hlt, hrest.le⟩
    · have hbounds := ih hrest hb
      omega

/-- Outside of the stretch there is no body. -/
theorem filter_eq_nil (h : Tiles start stop bs) (ha : a < start ∨ stop ≤ a) :
    bs.filter (·.contains a) = [] := by
  rw [List.filter_eq_nil_iff]
  intro b hb hcontains
  have hbounds := h.bounds hb
  have hin := Body.contains_iff.mp hcontains
  omega

/-- Inside of the stretch each address lies in exactly one body. -/
theorem filter_eq_singleton (h : Tiles start stop bs) (hle : start ≤ a) (hlt : a < stop) :
    ∃ b, bs.filter (·.contains a) = [b] := by
  induction bs generalizing start with
  | nil =>
    have heq : start = stop := h
    omega
  | cons b bs ih =>
    obtain ⟨rfl, hpos, hrest⟩ := h
    by_cases hin : a < b.stop
    · have hb : b.contains a = true := Body.contains_iff.mpr ⟨hle, hin⟩
      exact ⟨b, by rw [List.filter_cons, if_pos hb, hrest.filter_eq_nil (Or.inl hin)]⟩
    · have hb : ¬ b.contains a = true := fun hc => hin (Body.contains_iff.mp hc).2
      obtain ⟨b', hb'⟩ := ih hrest (Nat.le_of_not_lt hin)
      exact ⟨b', by rw [List.filter_cons, if_neg hb, hb']⟩

theorem find?_start (h : Tiles start stop bs) (hb : b ∈ bs) :
    bs.find? (·.start == b.start) = some b := by
  induction bs generalizing start with
  | nil => cases hb
  | cons first bs ih =>
    obtain ⟨rfl, hlt, hrest⟩ := h
    rcases List.mem_cons.mp hb with rfl | hb
    · exact List.find?_cons_of_pos (beq_self_eq_true b.start)
    · have hbounds := hrest.bounds hb
      have hne : first.start ≠ b.start := by omega
      rw [List.find?_cons_of_neg (by simpa using hne)]
      exact ih hrest hb

end Tiles

namespace Image

variable {im : Image} {a : Nat} {b : Body}

theorem enclosing?_of_filter (h : im.bodies.filter (·.contains a) = [b]) :
    im.enclosing? a = some b := by
  rw [enclosing?, ← List.head?_filter, h]
  rfl

/-- The body that an address lies in, where bodies do not overlap. -/
theorem enclosing?_of_contains {start stop : Nat} (h : Tiles start stop im.bodies)
    (hb : b ∈ im.bodies) (ha : b.contains a = true) : im.enclosing? a = some b := by
  have hbounds := h.bounds hb
  have hin := Body.contains_iff.mp ha
  obtain ⟨b', hb'⟩ := h.filter_eq_singleton (a := a) (by omega) (by omega)
  have hmem : b ∈ im.bodies.filter (·.contains a) := List.mem_filter.mpr ⟨hb, ha⟩
  rw [hb'] at hmem
  cases List.mem_singleton.mp hmem
  exact enclosing?_of_filter hb'

end Image

namespace Function

theorem width_pos (f : Function) : 0 < f.width := by
  unfold width
  omega

theorem tiles_placedAll (start : Nat) (fs : List Function) :
    Tiles start (start + widthAll fs) (placedAll start fs) := by
  induction fs generalizing start with
  | nil => rfl
  | cons f fs ih =>
    refine ⟨rfl, Nat.lt_add_of_pos_right f.width_pos, ?_⟩
    rw [widthAll, ← Nat.add_assoc]
    exact ih (start + f.width)

theorem map_placedAll {α : Type} {g : Body → α} {h : Function → α}
    (hg : ∀ f start, g (placed start f) = h f) (start : Nat) (fs : List Function) :
    (placedAll start fs).map g = fs.map h := by
  induction fs generalizing start with
  | nil => rfl
  | cons f fs ih => rw [placedAll, List.map_cons, List.map_cons, hg, ih]

section Sweep

variable {code : Array Word} {target : String → Nat} {start stop : Nat}

theorem sweep_placed {f : Function} (h : Holds code start (f.layout target start stop)) :
    sweep code start (start + f.width) =
      (Instruction.place start (f.assemble target start stop)).map .ok := by
  have hle := h.size_le (by rw [length_layout]; exact f.width_pos)
  rw [length_layout] at hle
  rw [← encode_assemble] at h
  exact sweep_of_holds h (by rw [widthAll_assemble]) hle

/-- A sweep goes through the bodies in turn. -/
theorem sweepFrom_placedAll {fs : List Function}
    (h : Holds code start (layoutAll target stop start fs))
    (hsize : start + widthAll fs = code.size) :
    sweepFrom code code.size start =
      (placedAll start fs).flatMap fun b => sweep code b.start b.stop := by
  induction fs generalizing start with
  | nil =>
    rw [← hsize]
    exact sweepFrom_self code _
  | cons f fs ih =>
    have hbody := h.append_left
    have hrest := ih (h.after (f.length_layout target start stop))
      (by rw [← hsize, widthAll, Nat.add_assoc])
    have hle : start + Instruction.widthAll (f.assemble target start stop) ≤ code.size := by
      rw [widthAll_assemble, ← hsize, widthAll]
      omega
    have hencoded : Holds code start
        ((f.assemble target start stop).flatMap Instruction.encode) := by
      rw [encode_assemble]
      exact hbody
    rw [sweepFrom_of_holds hencoded hle, widthAll_assemble, hrest, ← sweep_placed hbody]
    rfl

end Sweep

end Function

structure Image.Fills (im : Image) (b : Body) (is : List Instruction) : Prop where
  decodes : sweep im.code b.start b.stop = (Instruction.place b.start is).map .ok
  width : b.start + Instruction.widthAll is = b.stop

namespace Program

variable {p : Program} {im : Image} {b : Body} {f : Function} {k : Nat}

theorem tiles_of_compile (hc : p.compile = .ok im) : Tiles 0 im.code.size im.bodies := by
  obtain ⟨hcode, hbodies, -⟩ := image_of_compile hc
  have htiles := Function.tiles_placedAll 0 p.bodies
  rw [Nat.zero_add] at htiles
  rw [hbodies, size_of_layout hcode]
  exact htiles

theorem getElem?_bodies (hc : p.compile = .ok im) (k : Nat) :
    im.bodies[k]? = (p.bodies[k]?).map (Function.placed (p.start k)) := by
  rw [(image_of_compile hc).2.1, Function.getElem?_placedAll, Nat.zero_add]
  rfl

theorem placed_mem_bodies (hc : p.compile = .ok im) (hf : p.bodies[k]? = some f) :
    f.placed (p.start k) ∈ im.bodies := by
  refine List.mem_of_getElem? (i := k) ?_
  rw [getElem?_bodies hc, hf]
  rfl

/-- A body of the image belongs to one of the trees. -/
theorem exists_placed (hc : p.compile = .ok im) (hb : b ∈ im.bodies) :
    ∃ k f, p.bodies[k]? = some f ∧ b = Function.placed (p.start k) f := by
  obtain ⟨k, hk⟩ := List.mem_iff_getElem?.mp hb
  rw [getElem?_bodies hc] at hk
  obtain ⟨f, hf, heq⟩ := Option.map_eq_some_iff.mp hk
  exact ⟨k, f, hf, heq.symm⟩

theorem fills_placed (hc : p.compile = .ok im) (hf : p.bodies[k]? = some f) :
    im.Fills (f.placed (p.start k)) (f.assemble p.target (p.start k) im.code.size) := by
  refine ⟨Function.sweep_placed (holds_body (image_of_compile hc).1 hf), ?_⟩
  rw [Function.widthAll_assemble]
  rfl

/-- A body of the image is the code of one of the trees. -/
theorem exists_fills (hc : p.compile = .ok im) (hb : b ∈ im.bodies) :
    ∃ f ∈ p.bodies, b = f.placed b.start ∧
      im.Fills b (f.assemble p.target b.start im.code.size) := by
  obtain ⟨k, f, hf, rfl⟩ := exists_placed hc hb
  exact ⟨f, List.mem_of_getElem? hf, rfl, fills_placed hc hf⟩

theorem instructions_of_compile (hc : p.compile = .ok im) :
    im.instructions = im.bodies.flatMap fun b => sweep im.code b.start b.stop := by
  obtain ⟨hcode, hbodies, -⟩ := image_of_compile hc
  have hholds : Holds im.code 0 (Function.layoutAll p.target p.width 0 p.bodies) := by
    rw [Holds, List.drop_zero, hcode]
    exact List.prefix_refl _
  rw [Image.instructions, sweep, Nat.min_self, hbodies]
  exact Function.sweepFrom_placedAll hholds ((Nat.zero_add _).trans (size_of_layout hcode).symm)

structure LaidOut (p : Program) (im : Image) : Prop where
  entry : im.entry = 0
  /-- The main block comes first and then every function. -/
  signatures : im.bodies.map (fun b => (b.name, b.arity)) =
    (mainName, 0) :: p.functions.map fun f => (f.name, f.params.length)
  locals : im.bodies.map Body.locals = p.bodies.map fun f => f.params ++ Block.declares f.body
  distinct : ∀ b ∈ im.bodies, b.locals.Nodup
  tiles : Tiles 0 im.code.size im.bodies
  /-- Each address lies in exactly one body. -/
  enclosed : ∀ a < im.code.size,
    ∃ b, im.bodies.filter (·.contains a) = [b] ∧ im.enclosing? a = some b
  found : ∀ b ∈ im.bodies, im.bodyAt? b.start = some b
  /-- A body first makes room for its slots and last leads to the end of the stream. -/
  framed : ∀ b ∈ im.bodies, ∃ inner offset,
    im.Fills b (.stackAdjust (.ofNat b.locals.length) :: inner ++ [.jump offset]) ∧
      (Instruction.jump offset).jumpTarget (b.stop - 2) = some (.ofNat im.code.size)
  swept : im.instructions = im.bodies.flatMap fun b => sweep im.code b.start b.stop

theorem framed_of_compile (hc : p.compile = .ok im) (hsize : im.code.size < addressSpace)
    (hb : b ∈ im.bodies) :
    ∃ inner offset,
      im.Fills b (.stackAdjust (.ofNat b.locals.length) :: inner ++ [.jump offset]) ∧
        (Instruction.jump offset).jumpTarget (b.stop - 2) = some (.ofNat im.code.size) := by
  have hbounds := (tiles_of_compile hc).bounds hb
  obtain ⟨f, -, hplaced, hfills⟩ := exists_fills hc hb
  generalize b.start = start at hplaced hfills hbounds
  subst hplaced
  have hexit : (f.placed start).stop - 2 = start + 2 + Block.width f.body := by
    simp only [Function.placed, Function.width]
    omega
  refine ⟨_, _, hfills, ?_⟩
  rw [hexit]
  exact f.jumpTarget_exit hsize hbounds.2.2

/-- The bodies of a program fill its image in their order, each with its slots and its code. -/
theorem compile_laidOut (p : Program) (im : Image) (hc : p.compile = .ok im)
    (hsize : im.code.size < addressSpace) : p.LaidOut im := by
  obtain ⟨-, hbodies, hentry⟩ := image_of_compile hc
  obtain ⟨he, -⟩ := compile_eq_ok hc
  have htiles := tiles_of_compile hc
  refine ⟨hentry, ?_, ?_, ?_, htiles, ?_, ?_, ?_, instructions_of_compile hc⟩
  · rw [hbodies]
    exact Function.map_placedAll (h := fun f => (f.name, f.params.length)) (fun _ _ => rfl) 0 _
  · rw [hbodies]
    exact Function.map_placedAll (fun _ _ => rfl) 0 _
  · intro b hb
    obtain ⟨f, hf, hplaced, -⟩ := exists_fills hc hb
    rw [hplaced]
    exact Function.nodup_names (errors_body he hf)
  · intro a ha
    obtain ⟨b, hb⟩ := htiles.filter_eq_singleton (Nat.zero_le a) ha
    exact ⟨b, hb, Image.enclosing?_of_filter hb⟩
  · intro b hb
    exact htiles.find?_start hb
  · intro b hb
    exact framed_of_compile hc hsize hb

theorem compile_laidOut_gcd :
    ∃ im, Sample.greatestCommonDivisor.compile = .ok im ∧ im.code.size < addressSpace ∧
      Sample.greatestCommonDivisor.LaidOut im := by
  have hsize : Sample.greatestCommonDivisor.emission.patched.size < addressSpace := by decide
  exact ⟨_, rfl, hsize, compile_laidOut Sample.greatestCommonDivisor _ rfl hsize⟩

end Program

end Wordcode
