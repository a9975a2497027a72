import Wordcode.Proofs.OperandRuns
import Wordcode.Proofs.Sites
import Wordcode.Proofs.StackBound

/-!
One height for each address, read off the instructions before it. Main statement: it is the number
of temporaries in every state of every run that is there, whichever way led to it.
-/

namespace Wordcode

open Instruction (widthAll place level)

/-- Of instructions one after the other, those before an address between two of them. -/
theorem Instruction.filter_place (address : Nat) (before after : List Instruction) :
    (place address (before ++ after)).filter (·.1 < address + widthAll before) =
      place address before := by
  rw [place_append, List.filter_append, List.filter_eq_self.mpr, List.filter_eq_nil_iff.mpr,
    List.append_nil]
  · rintro ⟨a, i⟩ hi
    have hle := (place_le hi).1
    simpa using hle
  · rintro ⟨a, i⟩ hi
    have hle := (place_le hi).2
    have hpos := i.width_pos
    simp only [decide_eq_true_eq]
    omega

namespace Image

def earlier (im : Image) (b : Body) (a : Nat) : List Instruction :=
  (((sweep im.code b.start b.stop).filterMap Except.toOption).filter (·.1 < a)).map Prod.snd

def heightAt (im : Image) (a : Nat) : Nat :=
  match im.enclosing? a with
  | some b => level 0 (im.earlier b a)
  | none => 0

variable {im : Image} {b : Body} {a h high room limit bottom : Nat} {i : Instruction}
  {is : List Instruction} {origin : Array Word}

theorem Fills.earlier {before after : List Instruction} (hfills : im.Fills b (before ++ after)) :
    im.earlier b (b.start + widthAll before) = before := by
  have hplace : (sweep im.code b.start b.stop).filterMap Except.toOption =
      place b.start (before ++ after) := by
    rw [hfills.decodes, List.filterMap_map]
    exact List.filterMap_some
  rw [Image.earlier, hplace, Instruction.filter_place, Instruction.map_snd_place]

section Tiled

variable (htiles : Tiles 0 im.code.size im.bodies)

include htiles

theorem Graded.heightAt (hg : im.Graded b high is) (hb : b ∈ im.bodies)
    (hfinds : Finds (b.start + 2) is a h i) : im.heightAt a = h := by
  obtain ⟨before, after, rfl, rfl, rfl⟩ := hfinds
  have hfills : im.Fills b
      (.stackAdjust (.ofNat b.locals.length) :: before ++ i :: after) := hg.fills
  have hbefore : b.start + 2 + widthAll before =
      b.start + widthAll (.stackAdjust (.ofNat b.locals.length) :: before) := Nat.add_assoc _ _ _
  have hin : b.contains (b.start + 2 + widthAll before) = true := by
    have hwidth := hfills.width
    have hpos := i.width_pos
    rw [Instruction.widthAll_append, ← Nat.add_assoc, ← hbefore, widthAll] at hwidth
    exact Body.contains_iff.mpr ⟨by omega, by omega⟩
  rw [Image.heightAt, enclosing?_of_contains htiles hb hin, hbefore]
  dsimp only
  -- The instruction that makes room for the slots takes and leaves nothing.
  rw [hfills.earlier]
  rfl

theorem Poised.heightAt {locals : Nat} (hp : im.Poised room locals a h) : im.heightAt a = h := by
  obtain ⟨b, hb, high, is, i, -, hg, hfinds⟩ := hp
  exact hg.heightAt htiles hb hfinds

theorem heightAt_end : im.heightAt im.code.size = 0 := by
  have hnone : im.enclosing? im.code.size = none := by
    rw [enclosing?, ← List.head?_filter, htiles.filter_eq_nil (Or.inr (Nat.le_refl _))]
    rfl
  rw [heightAt, hnone]

theorem Settled.top_eq {f : Frame} (hs : im.Settled room f a) :
    f.top = f.floor + im.heightAt a := by
  cases hs with
  | within poised top => rw [top, poised.heightAt htiles]
  | ended stop top => rw [top, stop, heightAt_end htiles, Nat.add_zero]

/-- Inside of a body no other one starts. -/
theorem ne_start {b' : Body} (hb : b ∈ im.bodies) (hlt : b.start < a) (ha : a < b.stop)
    (hb' : b' ∈ im.bodies) : a ≠ b'.start := by
  rintro rfl
  have hin : b.contains b'.start = true := Body.contains_iff.mpr ⟨Nat.le_of_lt hlt, ha⟩
  have hin' : b'.contains b'.start = true :=
    Body.contains_iff.mpr ⟨Nat.le_refl _, (htiles.bounds hb').2.1⟩
  have heq := (enclosing?_of_contains htiles hb hin).symm.trans
    (enclosing?_of_contains htiles hb' hin')
  cases heq
  exact Nat.lt_irrefl _ hlt

end Tiled

/-- All states of a run are balanced, and only those where an invocation begins have no room for
their slots yet. -/
theorem Balanced.visits {s t : State} (hb : im.Balanced room limit s) (hbounded : im.Bounded room)
    (hsize : im.code.size < addressSpace) (hs : s.Confined origin bottom [])
    (hv : Exec.Visits limit im.code s t) :
    im.Balanced room limit t ∧ (Exec.Begins limit im.code s t ∨ im.Settled room t.frame t.pc) := by
  induction hv with
  | here => exact ⟨hb, Or.inl .outermost⟩
  | @next t t' before move ih =>
    have hstep := ih.1.step hbounded hsize (before.keeps (Exec.step_keeps _ _) hs)
    rw [move] at hstep
    cases hstep with
    | next balanced settled =>
      refine ⟨balanced, ?_⟩
      by_cases hdeeper : t.callers.length < t'.callers.length
      · exact Or.inl (.call before move hdeeper)
      · exact Or.inr (settled (Nat.le_of_not_lt hdeeper))

end Image

namespace Program

/-- The parts of all bodies of a program that are found at the given sites, each with what names
stand for in its body and the address in the image where its code starts. -/
def sitesIn {α : Type} (p : Program) (im : Image) (sites : Nat → Block → List (Nat × α)) :
    List (Linkage × Nat × α) :=
  (im.bodies.zip p.bodies).flatMap fun (b, f) =>
    (sites (b.start + 2) f.body).map fun site => (⟨f.names, p.target⟩, site)

def statementSites (p : Program) (im : Image) : List (Linkage × Nat × Statement) :=
  p.sitesIn im Block.sites

def operandSites (p : Program) (im : Image) : List (Linkage × Nat × Operand) :=
  p.sitesIn im fun a b => Wordcode.operandSites (Block.sites a b)

/-- Heights that tell how a program uses its stack. -/
structure Disciplined (p : Program) (im : Image) (height : Nat → Nat) : Prop where
  /-- An invocation begins at the start of a body. Once it has made room for its slots there, it has
  as many temporaries as its address tells. -/
  temporaries : ∀ (m : Machine) (base : Nat), base ≤ m.stack.size →
    ∀ s, Exec.Visits m.limits.callDepth im.code (m.start im.entry base) s →
      (Exec.Begins m.limits.callDepth im.code (m.start im.entry base) s ∧
        ∃ b ∈ im.bodies, s.pc = b.start) ∨
      s.frame.top = s.frame.floor + height s.pc
  statements : ∀ l a s, (l, a, s) ∈ p.statementSites im →
    Holds im.code a (s.layout l) ∧ height a = 0
  epilogues : ∀ b ∈ im.bodies, ∃ offset, decode im.code (b.stop - 2) = .ok (.jump offset) ∧
    (Instruction.jump offset).jumpTarget (b.stop - 2) = some (.ofNat im.code.size) ∧
    height (b.stop - 2) = 0
  operands : ∀ l a x, (l, a, x) ∈ p.operandSites im →
    Holds im.code a (x.layout l) ∧
    (∀ a' i, (a', i) ∈ place a (x.assemble l) → height a ≤ height a') ∧
    height (a + x.width) = height a + 1
  /-- Every run of an operand's code, up to its end. -/
  evaluations : ∀ l a x, (l, a, x) ∈ p.operandSites im →
    ∀ (m : Machine) (base : Nat), base ≤ m.stack.size →
      ∀ s t, Exec.Visits m.limits.callDepth im.code (m.start im.entry base) s → s.pc = a →
        Exec.Until m.limits.callDepth im.code (a + x.width) s t →
          Exec.Progress (x.assemble l) s t ∧
            (t.callers = s.callers → height a ≤ height t.pc)
  /-- No operand is left out. -/
  complete : (p.operandSites im).map (fun (_, _, x) => x) =
    p.bodies.flatMap fun f => Block.nodes f.body

variable {p : Program} {im : Image} {f : Function} {k : Nat}

theorem exists_placed_of_zip {b : Body} (hc : p.compile = .ok im)
    (h : (b, f) ∈ im.bodies.zip p.bodies) :
    ∃ k, p.bodies[k]? = some f ∧ b = f.placed (p.start k) := by
  obtain ⟨k, hk⟩ := List.mem_iff_getElem?.mp h
  obtain ⟨hb, hf⟩ := List.getElem?_zip_eq_some.mp hk
  rw [getElem?_bodies hc, hf] at hb
  exact ⟨k, hf, (Option.some.inj hb).symm⟩

theorem mem_sitesIn {α : Type} {sites : Nat → Block → List (Nat × α)} {l : Linkage}
    {site : Nat × α} (hc : p.compile = .ok im) (h : (l, site) ∈ p.sitesIn im sites) :
    ∃ k f, p.bodies[k]? = some f ∧ l = ⟨f.names, p.target⟩ ∧
      site ∈ sites (p.start k + 2) f.body := by
  obtain ⟨⟨b, f⟩, hbody, hmem⟩ := List.mem_flatMap.mp h
  obtain ⟨site, hsite, heq⟩ := List.mem_map.mp hmem
  cases heq
  obtain ⟨k, hf, rfl⟩ := exists_placed_of_zip hc hbody
  exact ⟨k, f, hf, rfl, hsite⟩

theorem map_operandSites (hc : p.compile = .ok im) :
    (p.operandSites im).map (fun (_, _, x) => x) = p.bodies.flatMap fun f => Block.nodes f.body := by
  have hlength : p.bodies.length ≤ im.bodies.length := by
    have hmap := Function.map_placedAll (g := fun _ => ()) (h := fun _ => ()) (fun _ _ => rfl) 0
      p.bodies
    rw [← (image_of_compile hc).2.1] at hmap
    simpa using (congrArg List.length hmap).ge
  have hzip : (im.bodies.zip p.bodies).map Prod.snd = p.bodies := List.map_snd_zip hlength
  rw [operandSites, sitesIn, List.map_flatMap]
  nth_rewrite 2 [← hzip]
  rw [List.flatMap_map]
  congr 1
  funext ⟨b, f⟩
  rw [List.map_map]
  exact Block.map_operandSites f.body (b.start + 2)

theorem visits_balanced (hc : p.compile = .ok im) (hsize : im.code.size < addressSpace)
    {m : Machine} {base : Nat} (hbase : base ≤ m.stack.size) {s : State}
    (hv : Exec.Visits m.limits.callDepth im.code (m.start im.entry base) s) :
    im.Balanced (p.cells im) m.limits.callDepth s ∧
      (Exec.Begins m.limits.callDepth im.code (m.start im.entry base) s ∨
        im.Settled (p.cells im) s.frame s.pc) := by
  have hmain : p.mainFunction.placed (p.start 0) ∈ im.bodies := placed_mem_bodies hc rfl
  have hstart : im.Balanced (p.cells im) m.limits.callDepth (m.start im.entry base) :=
    ⟨.begun hmain (image_of_compile hc).2.2, nofun, Nat.zero_le _⟩
  exact hstart.visits (bounded_of_compile hc hsize) hsize (m.start_confined im.entry hbase) hv

section Bodies

variable (hc : p.compile = .ok im) (hsize : im.code.size < addressSpace)
  (hf : p.bodies[k]? = some f)

include hc hsize hf

theorem width_lt_of_compile : Block.width f.body < addressSpace := by
  have hbounds := (tiles_of_compile hc).bounds (placed_mem_bodies hc hf)
  simp only [Function.placed, Function.width] at hbounds
  omega

/-- A body ends with the jump to the end of the stream, and nothing is left there. -/
theorem exit_of_compile :
    decode im.code (p.start k + 2 + Block.width f.body) = .ok (f.exit (p.start k) im.code.size) ∧
      (f.exit (p.start k) im.code.size).jumpTarget (p.start k + 2 + Block.width f.body) =
        some (.ofNat im.code.size) ∧
      im.heightAt (p.start k + 2 + Block.width f.body) = 0 := by
  have hbody := placed_mem_bodies hc hf
  have hgraded := graded_of_compile hc hsize hf
  have hfinds : Finds (p.start k + 2) (f.interior p.target (p.start k) im.code.size)
      (p.start k + 2 + Block.width f.body) 0 (f.exit (p.start k) im.code.size) :=
    ⟨_, [], rfl, by rw [Block.widthAll_assemble],
      Block.level_assemble (width_lt_of_compile hc hsize hf)⟩
  refine ⟨?_, f.jumpTarget_exit hsize ((tiles_of_compile hc).bounds hbody).2.2,
    hgraded.heightAt (tiles_of_compile hc) hbody hfinds⟩
  exact Image.decode_of_has (hgraded.fills.has_iff.mpr
    (List.mem_cons_of_mem _ hfinds.mem_place))

variable {a h : Nat} {js : List Instruction}
  (hsits : Sits (p.start k + 2) (Block.assemble ⟨f.names, p.target⟩ f.body) a h js)

include hsits

omit hsize in
theorem holds_of_sits : Holds im.code a (js.flatMap Instruction.encode) := by
  have hbody := holds_body (image_of_compile hc).1 hf
  have hblock : Holds im.code (p.start k + 2) (Block.layout ⟨f.names, p.target⟩ f.body) :=
    hbody.append_left.after rfl
  obtain ⟨before, after, heq, rfl, -⟩ := hsits
  rw [← Block.encode_assemble, heq, List.flatMap_append, List.flatMap_append] at hblock
  exact (hblock.after (Instruction.length_encodeAll before)).append_left

theorem heightAt_of_sits : im.heightAt a = h := by
  obtain ⟨i, hfinds⟩ := hsits.exists_finds
    (List.cons_ne_nil (f.exit (p.start k) im.code.size) [])
  exact (graded_of_compile hc hsize hf).heightAt (tiles_of_compile hc) (placed_mem_bodies hc hf)
    hfinds

/-- A run that is at code inside of a body finds as many temporaries as are there before it. -/
theorem top_of_sits {m : Machine} {base : Nat} (hbase : base ≤ m.stack.size) {s : State}
    (hv : Exec.Visits m.limits.callDepth im.code (m.start im.entry base) s) (hpc : s.pc = a) :
    s.frame.top = s.frame.floor + h := by
  have htiles := tiles_of_compile hc
  cases (visits_balanced hc hsize hbase hv).1.running with
  | settled further => rw [further.top_eq htiles, hpc, heightAt_of_sits hc hsize hf hsits]
  | begun body start =>
    have hbounds := hsits.bounds
    rw [Block.widthAll_assemble] at hbounds
    have hlt : (f.placed (p.start k)).start < a := by
      simp only [Function.placed]
      omega
    have hstop : a < (f.placed (p.start k)).stop := by
      simp only [Function.placed, Function.width]
      omega
    have hne := Image.ne_start htiles (placed_mem_bodies hc hf) hlt hstop body
    exact absurd (hpc.symm.trans start) hne

end Bodies

section Operands

variable (hc : p.compile = .ok im) (hsize : im.code.size < addressSpace)
  (hf : p.bodies[k]? = some f) {a h : Nat} {x : Operand}
  (hsits : Sits (p.start k + 2) (Block.assemble ⟨f.names, p.target⟩ f.body) a h
    (x.assemble ⟨f.names, p.target⟩))

include hc hsize hf hsits

theorem operand_climbs : Instruction.Climbs h (h + x.height) h
    (x.assemble ⟨f.names, p.target⟩) (h + 1) := by
  have hlt := width_lt_of_compile hc hsize hf
  have hbounds := hsits.bounds
  rw [Block.widthAll_assemble, Operand.widthAll_assemble] at hbounds
  exact x.climbs _ (by omega) h (Nat.le_refl _)

theorem heightAt_le_of_place {a' : Nat} {i : Instruction}
    (hi : (a', i) ∈ place a (x.assemble ⟨f.names, p.target⟩)) :
    im.heightAt a ≤ im.heightAt a' := by
  have hclimbs := operand_climbs hc hsize hf hsits
  obtain ⟨before, after, heq, rfl⟩ := Instruction.mem_place.mp hi
  rw [heightAt_of_sits hc hsize hf hsits]
  rw [heq] at hsits hclimbs
  rw [heightAt_of_sits hc hsize hf hsits.drop]
  exact hclimbs.low_le (Nat.le_refl h)

theorem heightAt_behind : im.heightAt (a + x.width) = im.heightAt a + 1 := by
  have hclimbs := operand_climbs hc hsize hf hsits
  rw [heightAt_of_sits hc hsize hf hsits, ← x.widthAll_assemble ⟨f.names, p.target⟩,
    ← hclimbs.level_eq]
  rw [← List.append_nil (x.assemble _)] at hsits
  exact heightAt_of_sits hc hsize hf hsits.drop

theorem progress_of_sits {m : Machine} {base : Nat} (hbase : base ≤ m.stack.size) {s t : State}
    (hv : Exec.Visits m.limits.callDepth im.code (m.start im.entry base) s) (hpc : s.pc = a)
    (hu : Exec.Until m.limits.callDepth im.code (a + x.width) s t) :
    Exec.Progress (x.assemble ⟨f.names, p.target⟩) s t := by
  have hconfined := hv.keeps (Exec.step_keeps _ _) (m.start_confined im.entry hbase)
  subst hpc
  rw [← x.widthAll_assemble ⟨f.names, p.target⟩] at hu
  exact hu.progress ⟨top_of_sits hc hsize hf hsits hbase hv rfl, operand_climbs hc hsize hf hsits,
    x.gives_assemble _, holds_of_sits hc hf hsits⟩ hsize hconfined

end Operands

theorem exists_operand_sits {l : Linkage} {a : Nat} {x : Operand} (hc : p.compile = .ok im)
    (hsize : im.code.size < addressSpace) (hx : (l, a, x) ∈ p.operandSites im) :
    ∃ k f h, p.bodies[k]? = some f ∧ l = ⟨f.names, p.target⟩ ∧
      Sits (p.start k + 2) (Block.assemble ⟨f.names, p.target⟩ f.body) a h
        (x.assemble ⟨f.names, p.target⟩) := by
  obtain ⟨k, f, hf, hl, hsite⟩ := mem_sitesIn hc hx
  obtain ⟨h, hsits⟩ := Block.operand_sits ⟨f.names, p.target⟩ (width_lt_of_compile hc hsize hf)
    hsite
  exact ⟨k, f, h, hf, hl, hsits⟩

/-- The heights that are read off the code of a program are those that its runs keep to. -/
theorem compile_disciplined (p : Program) (im : Image) (hc : p.compile = .ok im)
    (hsize : im.code.size < addressSpace) : p.Disciplined im im.heightAt := by
  refine ⟨?_, ?_, ?_, ?_, ?_, map_operandSites hc⟩
  · intro m base hbase s hv
    have htiles := tiles_of_compile hc
    obtain ⟨hbalanced, hstage⟩ := visits_balanced hc hsize hbase hv
    cases hbalanced.running with
    | begun body start =>
      exact hstage.imp (fun hbegins => ⟨hbegins, _, body, start⟩) (·.top_eq htiles)
    | settled further => exact Or.inr (further.top_eq htiles)
  · intro l a s hs
    obtain ⟨k, f, hf, rfl, hsite⟩ := mem_sitesIn hc hs
    have hsits := Block.sits ⟨f.names, p.target⟩ f.body (width_lt_of_compile hc hsize hf) _ hsite
    refine ⟨?_, heightAt_of_sits hc hsize hf hsits⟩
    rw [← s.encode_assemble]
    exact holds_of_sits hc hf hsits
  · intro b hb
    obtain ⟨k, f, hf, rfl⟩ := exists_placed hc hb
    have hstop : (f.placed (p.start k)).stop - 2 = p.start k + 2 + Block.width f.body := by
      simp only [Function.placed, Function.width]
      omega
    rw [hstop]
    exact ⟨_, exit_of_compile hc hsize hf⟩
  · intro l a x hx
    obtain ⟨k, f, h, hf, rfl, hsits⟩ := exists_operand_sits hc hsize hx
    refine ⟨?_, fun a' i hi => heightAt_le_of_place hc hsize hf hsits hi,
      heightAt_behind hc hsize hf hsits⟩
    rw [← x.encode_assemble]
    exact holds_of_sits hc hf hsits
  · intro l a x hx m base hbase s t hv hpc hu
    obtain ⟨k, f, h, hf, rfl, hsits⟩ := exists_operand_sits hc hsize hx
    have hprogress := progress_of_sits hc hsize hf hsits hbase hv hpc hu
    refine ⟨hprogress, ?_⟩
    intro hcallers
    rcases hprogress.inside hcallers with ⟨i, hi⟩ | ⟨hstop, -⟩
    · rw [hpc] at hi
      exact heightAt_le_of_place hc hsize hf hsits hi
    · rw [hstop, hpc, x.widthAll_assemble, heightAt_behind hc hsize hf hsits]
      exact Nat.le_succ _

end Program

def Sample.waitingSum : Program :=
  { functions := [{ name := "same", params := ["x"], body := [ret (var "x")] }]
    main := [ret (bin (int 1) .add (call "same" [int 2]))] }

/-- The run of the call, with a state of the callee on the way. -/
theorem Program.compile_disciplined_waiting :
    ∃ im s u t, Sample.waitingSum.compile = .ok im ∧ im.code.size < addressSpace ∧
      Sample.waitingSum.Disciplined im im.heightAt ∧
      Exec.Visits 512 im.code (Machine.start ⟨{}, #[9, 9, 9], 0⟩ im.entry 0) s ∧
      Exec.Until 512 im.code 9 s u ∧ Exec.Until 512 im.code 9 s t ∧
      s.pc = 4 ∧ u.callers.length = 1 ∧ t.callers = s.callers ∧ t.pc = 9 ∧
      ((Exec.Begins 512 im.code (Machine.start ⟨{}, #[9, 9, 9], 0⟩ im.entry 0) u ∧
        ∃ b ∈ im.bodies, u.pc = b.start) ∨ u.frame.top = u.frame.floor + im.heightAt u.pc) ∧
      Exec.Progress ((Sample.call "same" [Sample.int 2]).assemble ⟨[], Sample.waitingSum.target⟩)
        s t ∧
      im.heightAt s.pc ≤ im.heightAt t.pc := by
  have hsize : Sample.waitingSum.emission.patched.size < addressSpace := by decide
  have hd := compile_disciplined Sample.waitingSum _ rfl hsize
  have hs : Exec.Visits 512 Sample.waitingSum.emission.patched
      (Machine.start ⟨{}, #[9, 9, 9], 0⟩ 0 0) ⟨#[1, 9, 9], 4096, ⟨0, 0, 1⟩, 4, 0, []⟩ :=
    .next (.next .here rfl) rfl
  have hinner : Exec.Visits 512 Sample.waitingSum.emission.patched
      (Machine.start ⟨{}, #[9, 9, 9], 0⟩ 0 0)
      ⟨#[1, 2, 2], 4096, ⟨1, 1, 3⟩, 17, 1, [⟨⟨0, 0, 2⟩, 9, 1⟩]⟩ :=
    .next (.next (.next (.next hs rfl) rfl) rfl) rfl
  have hu : Exec.Until 512 Sample.waitingSum.emission.patched 9
      ⟨#[1, 9, 9], 4096, ⟨0, 0, 1⟩, 4, 0, []⟩
      ⟨#[1, 2, 2], 4096, ⟨1, 1, 3⟩, 17, 1, [⟨⟨0, 0, 2⟩, 9, 1⟩]⟩ :=
    .next (.next (.next (.next .here (by decide) rfl) (by decide) rfl) (by decide) rfl)
      (by decide) rfl
  have ht : Exec.Until 512 Sample.waitingSum.emission.patched 9
      ⟨#[1, 9, 9], 4096, ⟨0, 0, 1⟩, 4, 0, []⟩ ⟨#[1, 2, 2], 4096, ⟨0, 0, 2⟩, 9, 0, []⟩ :=
    .next hu (by decide) rfl
  obtain ⟨hprogress, hheight⟩ := hd.evaluations ⟨[], Sample.waitingSum.target⟩ 4
    (Sample.call "same" [Sample.int 2]) (List.mem_of_getElem? (i := 2) rfl)
    ⟨{}, #[9, 9, 9], 0⟩ 0 (by decide) _ _ hs rfl ht
  exact ⟨_, _, _, _, rfl, hsize, hd, hs, hu, ht, rfl, rfl, rfl, rfl,
    hd.temporaries ⟨{}, #[9, 9, 9], 0⟩ 0 (by decide) _ hinner, hprogress, hheight rfl⟩

end Wordcode
