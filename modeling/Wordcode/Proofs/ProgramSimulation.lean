import Wordcode.Proofs.BodySimulation

/-!
The code of a program carries out its evaluation. By induction on the fuel, a call instruction
enters the body that the call names, and its code carries out the call.
-/

namespace Wordcode

namespace Function

theorem length_layoutAll (target : String → Nat) (stop start : Nat) (fs : List Function) :
    (layoutAll target stop start fs).length = widthAll fs := by
  induction fs generalizing start with
  | nil => rfl
  | cons f rest ih =>
    rw [layoutAll, List.length_append, length_layout, ih]
    rfl

/-- Each body stands where the widths of those before it put it. -/
theorem holds_layoutAll {code : Array Word} {target : String → Nat} {stop start k : Nat}
    {fs : List Function} {f : Function} (h : Holds code start (layoutAll target stop start fs))
    (hf : fs[k]? = some f) :
    Holds code (start + widthAll (fs.take k))
      (f.layout target (start + widthAll (fs.take k)) stop) := by
  induction fs generalizing start k with
  | nil => cases hf
  | cons first rest ih =>
    cases k with
    | zero =>
      cases hf
      exact h.append_left
    | succ k =>
      have htail := ih (h.after (first.length_layout target start stop)) hf
      rwa [Nat.add_assoc] at htail

end Function

namespace Program

variable {p : Program} {code : Array Word}

theorem size_of_layout (h : code.toList = p.layout) : code.size = p.width := by
  rw [← Array.length_toList, h, layout, Function.length_layoutAll]
  rfl

theorem holds_body {k : Nat} {f : Function} (h : code.toList = p.layout)
    (hf : p.bodies[k]? = some f) :
    Holds code (p.start k) (f.layout p.target (p.start k) code.size) := by
  have hall : Holds code 0 (Function.layoutAll p.target p.width 0 p.bodies) := by
    rw [Holds, List.drop_zero, h]
    exact List.prefix_refl _
  have hbody := Function.holds_layoutAll hall hf
  rw [Nat.zero_add] at hbody
  rwa [size_of_layout h]

/-- A call leads to the body of the first function of its name. -/
theorem target_eq_start {name : String} {f : Function}
    (h : p.functions.find? (·.name == name) = some f) :
    ∃ k, p.target name = p.start k ∧ p.bodies[k]? = some f := by
  rw [List.find?_eq_bind_findIdx?_getElem?] at h
  obtain ⟨k, hk, hf⟩ := Option.bind_eq_some_iff.mp h
  refine ⟨k + 1, ?_, hf⟩
  rw [target, hk]

end Program

namespace Exec

section Invocation

variable {limit : Nat} {code : Array Word} {fs : List Function} {target : String → Nat}
  {fuel depth start : Nat} {call : Calls} {f : Function} {args below : List Word}
  {callers : List Caller}

theorem simulates_invoke (he : f.errors fs = []) (hargs : args.length = f.params.length)
    (hcount : 2 * args.length ≤ code.size) (hsize : code.size < addressSpace)
    (h : Holds code start (f.layout target start code.size))
    (hcalls : Calling limit code fs target fuel depth call) :
    Simulates limit code fuel ⟨start, below, [], args, depth, callers⟩ (f.invoke call fuel args)
      (Returns code below depth callers) := by
  have hbody := (List.append_eq_nil_iff.mp he).2
  have hend := h.size_le (by rw [Function.length_layout, Function.width]; omega)
  rw [Function.length_layout, Function.width] at hend
  have hdeclares := Block.two_mul_declares_le f.body
  have hnames : f.names.length = f.params.length + (Block.declares f.body).length :=
    List.length_append
  simp only [Function.layout, Holds.append_iff, List.length_append, Block.length_layout,
    ← Nat.add_assoc] at h
  obtain ⟨⟨hadjust, hblock⟩, hjump⟩ := h
  have hslots : f.names.length < addressSpace := by omega
  have hl : Linked limit code fs ⟨f.names, target⟩ fuel depth call :=
    ⟨hsize, hslots, Function.nodup_names he, hcalls⟩
  refine (moves_stackAdjust hadjust hslots (by omega)).simulates ?_
  rw [← Function.map_names_ofArguments he hargs]
  refine (hl.block below callers f.body f.params (List.subset_append_left ..)
    (List.subset_append_right ..) hbody (start + 2) hblock _).bind ?_
  intro flow c hc
  cases flow with
  | next env =>
    cases hc
    have hoffset : ((start + 2 + Block.width f.body + 1 : Nat) : Int)
        + (Int64.ofNat (code.size - (start + 2 + Block.width f.body + 1))).toInt
          = (code.size : Nat) := Word.add_forward (by omega) (by omega)
    exact (moves_jump hjump hoffset (Nat.le_refl _) hsize).simulates
      (simulates_throw step_raises_at_end .fellOffEnd)
  | returned w => exact simulates_pure hc

end Invocation

section Programs

variable {p : Program} {limit : Nat} {code : Array Word}

/-- The call instructions of a program carry out its calls. The step into a body takes one unit of
fuel, and the body is left with the rest. -/
theorem calling_call (he : p.errors = []) (hcode : code.toList = p.layout)
    (hsize : code.size < addressSpace) (fuel depth : Nat) :
    Calling limit code p.functions p.target fuel depth (p.call limit fuel depth) := by
  induction fuel generalizing depth with
  | zero =>
    intro _ _ _ _ _ _ _ _ _ _
    exact simulates_outOfFuel
  | succ fuel ih =>
    intro pc below slots temps args callers name h hf hcount
    obtain ⟨f, hfind, hparams⟩ := hf
    obtain ⟨k, htarget, hk⟩ := Program.target_eq_start hfind
    have hholds := Program.holds_body hcode hk
    have herrors := Program.errors_body he (List.mem_of_getElem? hk)
    have hstart := hholds.size_le (by rw [Function.length_layout, Function.width]; omega)
    rw [Function.length_layout, Function.width] at hstart
    rw [htarget] at h
    by_cases hd : limit ≤ depth
    · rw [Program.call_of_limit_le hd]
      refine simulates_throw ?_ (.callDepthExceeded limit)
      exact raises_call h (by omega) (by omega) hsize hd
    · rw [Program.call_of_lt_limit (by omega) hfind, ← bind_pure (f.invoke _ fuel args)]
      refine (moves_call h (by omega) (by omega) hsize (by omega)).simulates_succ ?_
      refine (simulates_invoke herrors hparams.symm hcount hsize hholds (ih (depth + 1))).bind ?_
      rintro w _ ⟨pc', vs, vs', hret, rfl⟩
      exact (moves_ret hret).simulates (simulates_pure rfl)

theorem simulates_eval (he : p.errors = []) (hcode : code.toList = p.layout)
    (hsize : code.size < addressSpace) (limit fuel : Nat) (below : List Word) :
    Simulates limit code fuel ⟨0, below, [], [], 0, []⟩ (p.eval limit fuel)
      (Returns code below 0 []) := by
  have hmain : p.bodies[0]? = some p.mainFunction := rfl
  have herrors := Program.errors_body he (List.mem_of_getElem? hmain)
  have hstart : p.start 0 = 0 := rfl
  have hholds := Program.holds_body hcode hmain
  rw [hstart] at hholds
  exact simulates_invoke herrors rfl (Nat.zero_le _) hsize hholds
    (calling_call he hcode hsize fuel 0)

theorem Returns.ends {w : Word} {c : Config} {below : List Word} {s : State}
    (h : Returns code below 0 [] w c) (hs : s.Shows c) :
    Overflows limit code s ∨ Ends limit code s (.ok w) := by
  obtain ⟨pc, slots, temps, hholds, rfl⟩ := h
  rcases answers_ret hholds s hs with ⟨t, hstep, -⟩ | ⟨n, t, hstep⟩
  · exact Or.inr ⟨1, t, runFrom_of_answer hstep⟩
  · exact Or.inl ⟨n, 1, t, runFrom_of_error hstep⟩

section Outcomes

variable (he : p.errors = []) (hcode : code.toList = p.layout) (hsize : code.size < addressSpace)
  {below : List Word} {s : State} (hs : s.Shows ⟨0, below, [], [], 0, []⟩)

include he hcode hsize hs

/-- If the evaluation comes to something, the run ends. -/
theorem ends_of_evaluates {x : Except Trap Word} (hx : p.Evaluates limit x) :
    Overflows limit code s ∨ ∃ r, Realizes code.size x r ∧ Ends limit code s r := by
  obtain ⟨fuel, heval⟩ := hx
  have hcases := simulates_eval he hcode hsize limit fuel below s hs
  rw [heval] at hcases
  rcases hcases with ho | hx
  · exact Or.inl ho
  · cases x with
    | error t =>
      obtain ⟨f, ht, hf⟩ := hx
      exact Or.inr ⟨.error f, .fault ht, hf⟩
    | ok w =>
      obtain ⟨s', c, hreach, hs', hret⟩ := hx
      rcases hret.ends hs' with ho | hend
      · exact Or.inl (hreach.overflows ho)
      · exact Or.inr ⟨.ok w, .value w, hreach.ends hend⟩

/-- If the run ends, the evaluation comes to something. -/
theorem evaluates_of_ends {r : Except Fault Word} (h : Ends limit code s r) :
    Overflows limit code s ∨ ∃ x, p.Evaluates limit x := by
  obtain ⟨steps, s', hrun⟩ := h
  -- The evaluation does not run out of fuel that covers the steps of the run.
  rcases simulates_eval he hcode hsize limit steps below s hs with ho | hx
  · exact Or.inl ho
  · cases heval : (p.eval limit steps).run with
    | none =>
      rw [heval] at hx
      rw [Carries, hrun] at hx
      cases hx
    | some x => exact Or.inr ⟨x, steps, heval⟩

/-- A run that ends without an overflow ends the way of the evaluation. -/
theorem realizes_of_ends {r : Except Fault Word} (h : Ends limit code s r) :
    (∃ n, r = .error (.stackOverflow n)) ∨
      ∃ x, p.Evaluates limit x ∧ Realizes code.size x r := by
  rcases evaluates_of_ends he hcode hsize hs h with ⟨n, ho⟩ | ⟨x, hx⟩
  · exact Or.inl ⟨n, h.unique ho⟩
  · rcases ends_of_evaluates he hcode hsize hs hx with ⟨n, ho⟩ | ⟨r', hr, hend⟩
    · exact Or.inl ⟨n, h.unique ho⟩
    · rw [h.unique hend]
      exact Or.inr ⟨x, hx, hr⟩

end Outcomes

end Programs

end Exec

end Wordcode
