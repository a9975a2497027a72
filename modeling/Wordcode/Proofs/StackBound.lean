import Mathlib.Data.List.MinMax
import Wordcode.Proofs.Balance
import Wordcode.Proofs.Correctness

/-!
How large a stack suffices. Main statement: with room for one invocation more than calls can nest,
each as large as the largest body, it never overflows.
-/

namespace Wordcode

/-- The most cells that a body takes up: its slots, and the temporaries of its highest operand. -/
def Program.cells (p : Program) (im : Image) : Nat :=
  ((im.bodies.zip p.bodies).map fun (b, f) => b.locals.length + Block.height f.body).foldr max 0

namespace Program

variable {p : Program} {im : Image} {f : Function} {k : Nat}

section Compiled

variable (hc : p.compile = .ok im) (hsize : im.code.size < addressSpace)

include hc hsize

theorem graded_of_compile (hf : p.bodies[k]? = some f) :
    im.Graded (f.placed (p.start k)) (Block.height f.body)
      (f.interior p.target (p.start k) im.code.size) := by
  have hbody := placed_mem_bodies hc hf
  have hfills := fills_placed hc hf
  have hbounds := (tiles_of_compile hc).bounds hbody
  have hstop : p.start k + f.width ≤ im.code.size := hbounds.2.2
  have hhas : ∀ {a i}, (a, i) ∈ Instruction.place (p.start k + 2)
      (f.interior p.target (p.start k) im.code.size) → im.Has (f.placed (p.start k)) a i :=
    fun h => hfills.has_iff.mpr (List.mem_cons_of_mem _ h)
  refine ⟨hfills, f.climbs _ _ _ (by omega), ⟨_, List.getLast?_concat⟩, ?_, ?_⟩
  · intro a i target hi ht
    have hinside := inside_of_compile hc hbody (hhas hi)
    have hwidth := i.width_pos
    obtain ⟨offset, hoffset⟩ := Instruction.offset?_of_jumpTarget ht
    have hstops : ∀ n, (n = im.code.size ∨ ∃ j, Finds (p.start k + 2)
        (f.interior p.target (p.start k) im.code.size) n 0 j) → n < addressSpace := by
      rintro n (rfl | ⟨j, hj⟩)
      · exact hsize
      · have hend := inside_of_compile hc hbody (hhas hj.mem_place)
        omega
    obtain ⟨n, hn, -, htarget⟩ := (f.lands_interior p.target hsize hstop).jumpTarget hi hoffset
      (by omega) hstops
    rw [htarget] at ht
    cases ht
    exact ⟨n, Word.toIndex?_ofNat (hstops n hn), hn⟩
  · intro a argc target hi
    obtain ⟨b, hb, htarget, -⟩ := calls_of_compile hc hsize hbody (hhas hi)
    exact ⟨b, hb, htarget⟩

theorem bounded_of_compile : im.Bounded (p.cells im) := by
  intro b hb
  obtain ⟨k, hk⟩ := List.mem_iff_getElem?.mp hb
  have hbody := hk
  rw [getElem?_bodies hc] at hk
  obtain ⟨f, hf, rfl⟩ := Option.map_eq_some_iff.mp hk
  refine ⟨_, _, ?_, graded_of_compile hc hsize hf⟩
  have hmem : (f.placed (p.start k), f) ∈ im.bodies.zip p.bodies :=
    List.mem_of_getElem? (List.getElem?_zip_eq_some.mpr ⟨hbody, hf⟩)
  exact List.le_max_of_le' 0 (List.mem_map_of_mem hmem) (Nat.le_refl _)

end Compiled

end Program

namespace Image

variable {im : Image} {room limit size bottom base : Nat} {callers : List Caller} {s : State}
  {origin : Array Word}

/-- Each invocation that waits leaves less than `room` cells below the frame of its callee. -/
theorem base_le_of_stacked (h : Stacked size bottom [] base callers)
    (hwaiting : ∀ c ∈ callers, ∃ h, im.Poised room c.frame.locals c.pc (h + 1) ∧
      c.frame.top = c.frame.floor + h + c.argc) : base ≤ bottom + callers.length * room := by
  induction h with
  | bottom => exact Nat.le_add_right _ _
  | @call c callers _ _ _ ih =>
    obtain ⟨⟨h, hpoised, htop⟩, hrest⟩ := List.forall_mem_cons.mp hwaiting
    have hle := hpoised.height_le
    have hbelow := ih hrest
    have hfloor : c.frame.floor = c.frame.base + c.frame.locals := rfl
    rw [List.length_cons, Nat.succ_mul]
    omega

/-- With room for one invocation more than calls nest, a balanced run never fills the stack. -/
theorem Balanced.runFrom_ne_overflow (hb : im.Balanced room limit s) (hbounded : im.Bounded room)
    (hsize : im.code.size < addressSpace) (hs : s.Confined origin 0 [])
    (hroom : (limit + 1) * room ≤ origin.size) (steps n : Nat) (t : State) :
    Exec.runFrom limit im.code steps s ≠ some ⟨.error (.stackOverflow n), t⟩ := by
  induction steps generalizing s with
  | zero => simp [Exec.runFrom]
  | succ steps ih =>
    have hstep := hb.step hbounded hsize hs
    have hleft := Exec.step_keeps limit im.code s hs
    rw [Exec.runFrom, EStateM.run]
    generalize Exec.step limit im.code s = r at hstep hleft
    cases hstep with
    | next balanced => exact ih balanced hleft
    | answer => simp
    | overflow full =>
      have hdepth : s.callers.length ≤ limit := hs.depth ▸ hb.nested
      have hbase := base_le_of_stacked hs.stacked hb.waiting
      have hframe : s.frame.base + room ≤ s.stack.size :=
        calc s.frame.base + room ≤ s.callers.length * room + room := by omega
          _ = (s.callers.length + 1) * room := (Nat.succ_mul _ _).symm
          _ ≤ (limit + 1) * room := Nat.mul_le_mul_right room (Nat.succ_le_succ hdepth)
          _ ≤ origin.size := hroom
          _ = s.stack.size := hs.untouched.size.symm
      exact absurd full (Nat.not_lt.mpr hframe)
    | fault other =>
      intro h
      cases h
      exact other n rfl

end Image

namespace Program

section Room

variable {p : Program} {im : Image} (hc : p.compile = .ok im) (hsize : im.code.size < addressSpace)

include hc hsize

theorem runFrom_ne_overflow {m : Machine} (hm : m.Occurs)
    (hroom : (m.limits.callDepth + 1) * p.cells im ≤ m.limits.stackCapacity) (steps n : Nat)
    (t : State) :
    Exec.runFrom m.limits.callDepth im.code steps (m.start im.entry 0) ≠
      some ⟨.error (.stackOverflow n), t⟩ := by
  have hmain : p.mainFunction.placed (p.start 0) ∈ im.bodies := placed_mem_bodies hc rfl
  have hentry : im.entry = 0 := (image_of_compile hc).2.2
  have hb : im.Balanced (p.cells im) m.limits.callDepth (m.start im.entry 0) :=
    ⟨.begun hmain hentry, nofun, Nat.zero_le _⟩
  have hs := m.start_confined im.entry (Nat.zero_le _)
  rw [← hm.size_stack] at hroom
  exact hb.runFrom_ne_overflow (bounded_of_compile hc hsize) hsize hs hroom steps n t

/-- With enough room a program that comes to something runs to it. -/
theorem run_of_evaluates {limits : Limits} (hv : limits.validate = .ok limits)
    (hroom : (limits.maxCallDepth + 1) * p.cells im ≤ limits.stackCapacity)
    {x : Except Trap Word} (hx : p.Evaluates limits.maxCallDepth x) :
    ∃ steps r, p.run limits steps = some (r.mapError .faulted) ∧ Realizes im.code.size x r := by
  obtain ⟨he, -⟩ := compile_eq_ok hc
  obtain ⟨hcode, -, hentry⟩ := image_of_compile hc
  have hdepth : (Machine.new limits).limits.callDepth = limits.maxCallDepth :=
    Limits.callDepth_of_problem? (Limits.validate_eq_ok_iff.mp hv)
  have hs := @Machine.start_shows (Machine.new limits) 0 0 (Nat.zero_le _)
  obtain ⟨n, steps, s, hrun⟩ | ⟨r, hr, steps, s, hrun⟩ :=
    Exec.ends_of_evaluates he hcode hsize hs hx
  · rw [← hdepth] at hroom
    have hne := runFrom_ne_overflow hc hsize (.new limits) hroom steps n s
    rw [hentry, hdepth] at hne
    exact absurd hrun hne
  · refine ⟨steps, r, ?_, hr⟩
    rw [run_eq_runFrom hc hv, hrun]
    rfl

end Room

/-- On a stack that holds one invocation more than calls can nest, each as large as the largest
body, a program never ends in an overflow. -/
theorem execute_ne_overflow (p : Program) (im : Image) (hc : p.compile = .ok im)
    (hsize : im.code.size < addressSpace) (m : Machine) (hm : m.Occurs)
    (hroom : (m.limits.callDepth + 1) * p.cells im ≤ m.limits.stackCapacity) (steps n : Nat)
    (m' : Machine) :
    m.execute steps im.code im.entry 0 ≠ some (.error (.stackOverflow n), m') := by
  rw [Machine.execute_of_le (Nat.zero_le _)]
  intro h
  obtain ⟨⟨r, t⟩, hrun, heq⟩ := Option.map_eq_some_iff.mp h
  cases heq
  exact runFrom_ne_overflow hc hsize hm hroom steps n t hrun

/-- Calls that nest without end are stopped at their limit while the stack holds. -/
theorem execute_ne_overflow_runaway :
    ∃ im m', Sample.runaway.compile = .ok im ∧ im.code.size < addressSpace ∧
      (Machine.new ⟨12, 3⟩).Occurs ∧
      ((⟨12, 3⟩ : Limits).callDepth + 1) * Sample.runaway.cells im ≤ 12 ∧
      (Machine.new ⟨12, 3⟩).execute 40 im.code im.entry 0 =
        some (.error (.callDepthExceeded 3), m') ∧
      ∀ n m'', (Machine.new ⟨12, 3⟩).execute 40 im.code im.entry 0 ≠
        some (.error (.stackOverflow n), m'') := by
  have hsize : Sample.runaway.emission.patched.size < addressSpace := by decide
  have hroom : ((⟨12, 3⟩ : Limits).callDepth + 1) * Sample.runaway.cells
      { code := Sample.runaway.emission.patched,
        bodies := Sample.runaway.emission.bodies } ≤ 12 := by
    decide
  exact ⟨_, _, rfl, hsize, .new _, hroom, rfl,
    execute_ne_overflow Sample.runaway _ rfl hsize _ (.new _) hroom 40⟩

end Program

end Wordcode
