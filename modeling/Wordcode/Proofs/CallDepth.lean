import Wordcode.Proofs.CheckedFlow

/-!
How deep calls are nested. Main statement: the depth counter is the number of waiting invocations,
and a run is stopped for it exactly where a call that could be made meets the limit.
-/

namespace Wordcode

def State.unwound (s : State) (n : Nat) : Nat :=
  (s.callers.take n).foldl (fun depth _ => depth - 1) s.depth

theorem State.unwound_eq {s : State} {n : Nat} (h : n ≤ s.callers.length) :
    s.unwound n = s.depth - n := by
  have hfold : ∀ (cs : List Caller) (depth : Nat),
      cs.foldl (fun depth _ => depth - 1) depth = depth - cs.length := by
    intro cs
    induction cs with
    | nil => exact fun _ => rfl
    | cons c cs ih =>
      intro depth
      rw [List.foldl_cons, ih, List.length_cons, Nat.sub_sub, Nat.add_comm]
  rw [unwound, hfold, List.length_take, Nat.min_eq_left h]

theorem Machine.depth_after (limits : Limits) (s : State) :
    (after limits s).depth = s.unwound s.callers.length := by
  rw [State.unwound, List.take_length]
  rfl

def Fault.IsShallow : Fault → Prop
  | .callDepthExceeded _ => False
  | _ => True

theorem State.length_counters (s : State) : s.counters.length = s.callers.length + 1 := by
  rw [counters, List.length_cons, List.length_map]

namespace Exec

def GoesOn (size : Nat) (rest cs : List Nat) : Prop := ∃ n ≤ size, cs = n :: rest

inductive Nests (size limit : Nat) (s : State) : List Nat → Prop where
  | same {n : Nat} (le : n ≤ size) : Nests size limit s (n :: s.callers.map Caller.pc)
  | call {entry : Nat} (room : s.depth < limit) (inside : entry < size) (back : s.pc + 3 ≤ size) :
      Nests size limit s (entry :: (s.pc + 3) :: s.callers.map Caller.pc)
  | ret {c : Caller} {callers : List Caller} (waits : s.callers = c :: callers) :
      Nests size limit s (c.pc :: callers.map Caller.pc)

variable {limit : Nat} {code : Array Word} {s t : State}

theorem Leaves.imp {α : Type} {P Q : State → Prop} {r : EStateM.Result Fault State α}
    (h : Leaves P r) (hPQ : ∀ t, P t → Q t) : Leaves Q r := by
  cases r with
  | ok a t => exact hPQ t h
  | error f t => exact hPQ t h

section GoesOn

variable {size : Nat} {rest : List Nat} (address : Nat)

/-- What holds of the counters is kept by an action that leaves them alone. -/
theorem Keeps.of_counters {α : Type} {x : Exec α} {Q : List Nat → Prop}
    (h : ∀ cs, Keeps (fun t => t.counters = cs) x) : Keeps (fun t => Q t.counters) x := by
  intro t ht
  refine (h t.counters t rfl).imp fun u hu => ?_
  rw [hu]
  exact ht

theorem pop_goesOn : Keeps (fun t => GoesOn size rest t.counters) (pop address) :=
  .of_counters fun _ => pop_counters address

theorem push_goesOn (w : Word) : Keeps (fun t => GoesOn size rest t.counters) (push w) :=
  .of_counters fun _ => push_counters w

theorem immediate_goesOn (code : Array Word) :
    Keeps (fun t => GoesOn code.size rest t.counters) (immediate code address) := by
  rintro t ⟨n, hn, hcounters⟩
  rw [immediate_apply]
  cases hw : code[t.pc]? with
  | none => exact ⟨n, hn, hcounters⟩
  | some w =>
    have hlt : t.pc < code.size := (Array.getElem?_eq_some_iff.mp hw).1
    exact ⟨t.pc + 1, hlt, by rw [← (List.cons.inj hcounters).2]; rfl⟩

theorem follow_goesOn (code : Array Word) :
    Keeps (fun t => GoesOn code.size rest t.counters) (follow code address) := by
  rintro t ⟨n, hn, hcounters⟩
  rw [follow_apply]
  cases code[t.pc]? with
  | none => exact ⟨n, hn, hcounters⟩
  | some offset =>
    dsimp only
    cases Word.add? (.ofNat t.pc) offset with
    | none => exact ⟨n, hn, hcounters⟩
    | some target =>
      dsimp only
      cases target.toIndex? with
      | none => exact ⟨n, hn, hcounters⟩
      | some i =>
        dsimp only
        split
        next hle => exact ⟨i, hle, by rw [← (List.cons.inj hcounters).2]; rfl⟩
        next => exact ⟨n, hn, hcounters⟩

theorem perform_goesOn (limit : Nat) (code : Array Word) {op : Opcode} (hcall : op ≠ .call)
    (hret : op ≠ .ret) :
    Keeps (fun t => GoesOn code.size rest t.counters) (perform limit code address op) := by
  cases op with
  | unary op =>
    rw [perform_unary]
    exact (pop_goesOn _).bind fun a => (push_goesOn _).bind fun _ => keeps_pure none
  | binary op =>
    rw [perform_binary]
    refine (pop_goesOn _).bind fun b => (pop_goesOn _).bind fun a => ?_
    cases op.apply a b with
    | ok w => exact (push_goesOn w).bind fun _ => keeps_pure none
    | error e => exact keeps_throw _
  | load =>
    exact (immediate_goesOn _ code).bind fun slot =>
      .of_counters fun _ => loadSlot_counters address slot
  | store =>
    exact (immediate_goesOn _ code).bind fun slot =>
      .of_counters fun _ => storeSlot_counters address slot
  | int =>
    exact (immediate_goesOn _ code).bind fun w => (push_goesOn w).bind fun _ => keeps_pure none
  | jumpIfFalse =>
    refine (pop_goesOn _).bind fun w => ?_
    split
    next => exact (follow_goesOn _ code).bind fun _ => keeps_pure none
    next => exact (immediate_goesOn _ code).bind fun _ => keeps_pure none
  | jump => exact (follow_goesOn _ code).bind fun _ => keeps_pure none
  | stackAdjust =>
    refine (immediate_goesOn _ code).bind fun count => Keeps.bind ?_ fun _ => keeps_pure none
    exact .of_counters fun _ => adjust_counters address count
  | call => exact absurd rfl hcall
  | ret => exact absurd rfl hret
  | pop => exact (pop_goesOn _).bind fun _ => keeps_pure none

end GoesOn

section Nests

theorem GoesOn.nests {size : Nat} {cs : List Nat}
    (h : GoesOn size (s.callers.map Caller.pc) cs) : Nests size limit s cs := by
  obtain ⟨n, hn, rfl⟩ := h
  exact .same hn

theorem enter_nests (argc target : Word) (address : Nat) (hback : s.pc + 3 ≤ code.size) :
    Leaves (fun t => Nests code.size limit s t.counters)
      (enter limit code argc target address { s with pc := s.pc + 3 }) := by
  rw [enter_apply]
  cases argc.toIndex? with
  | none => exact .same hback
  | some n =>
    dsimp only
    split
    next => exact .same hback
    next =>
      cases target.toIndex? with
      | none => exact .same hback
      | some entry =>
        dsimp only
        split
        next => exact .same hback
        next hinside =>
          split
          next => exact .same hback
          next hroom => exact .call (Nat.lt_of_not_le hroom) (Nat.lt_of_not_le hinside) hback

theorem step_call_nests (hop : opcodeAt code s.pc = some .call) :
    Leaves (fun t => Nests code.size limit s t.counters) (step limit code s) := by
  obtain ⟨argc, target, -, hback, hstep⟩ | ⟨n, hle, -, hstep⟩ := step_call_cases limit hop
  · rw [hstep]
    exact (enter_nests argc target s.pc hback).bind fun _ => keeps_pure none
  · rw [hstep]
    exact .same hle

theorem step_ret_nests (hop : opcodeAt code s.pc = some .ret) :
    Leaves (fun t => Nests code.size limit s t.counters) (step limit code s) := by
  obtain ⟨word, hword, -⟩ := Option.bind_eq_some_iff.mp hop
  have hnext : s.pc + 1 ≤ code.size := (Array.getElem?_eq_some_iff.mp hword).1
  rw [step_ret limit hop]
  split
  next =>
    rw [leave_apply]
    split
    next => exact .same hnext
    next c callers hcallers =>
      refine (((push_counters _).bind fun _ => keeps_pure none) _ rfl).imp fun t ht => ?_
      rw [ht]
      exact .ret hcallers
  next => exact .same hnext

/-- Whether a step faults or not, it goes on in its invocation, begins a new one or returns. -/
theorem step_nests {op : Opcode} (limit : Nat) (hop : opcodeAt code s.pc = some op) :
    Leaves (fun t => Nests code.size limit s t.counters) (step limit code s) := by
  by_cases hcall : op = .call
  · subst hcall
    exact step_call_nests hop
  · by_cases hret : op = .ret
    · subst hret
      exact step_ret_nests hop
    · obtain ⟨word, hword, -⟩ := Option.bind_eq_some_iff.mp hop
      have hnext : s.pc + 1 ≤ code.size := (Array.getElem?_eq_some_iff.mp hword).1
      rw [step_of_opcode limit hop]
      exact (perform_goesOn s.pc limit code hcall hret _ ⟨s.pc + 1, hnext, rfl⟩).imp
        fun t ht => ht.nests

theorem nests_of_ok {answer : Option Word} (h : step limit code s = .ok answer t) :
    Nests code.size limit s t.counters := by
  cases hop : opcodeAt code s.pc with
  | none =>
    obtain ⟨f, pc, hstep⟩ := step_of_no_opcode limit hop
    simp [h] at hstep
  | some op =>
    have hnests := step_nests limit hop
    rw [h] at hnests
    exact hnests

end Nests

section Limit

def Callable (code : Array Word) (s : State) : Prop :=
  ∃ argc target n entry, decode code s.pc = .ok (.call argc target) ∧
    argc.toIndex? = some n ∧ n ≤ s.frame.top - s.frame.floor ∧
    target.toIndex? = some entry ∧ entry < code.size

variable {P : Fault → Prop} {address n : Nat}

theorem immediate_throws (hf : P (.truncated address)) : Throws P (immediate code address) := by
  intro s f t h
  rw [immediate_apply] at h
  cases hw : code[s.pc]? with
  | none =>
    rw [hw] at h
    cases h
    exact hf
  | some w => simp [hw] at h

theorem follow_throws (hf : P (.truncated address))
    (hjump : ∀ target, P (.invalidJumpTarget target address)) :
    Throws P (follow code address) := by
  intro s f t h
  rw [follow_apply] at h
  cases hw : code[s.pc]? with
  | none =>
    rw [hw] at h
    cases h
    exact hf
  | some offset =>
    simp only [hw] at h
    split at h
    next =>
      cases h
      exact hjump _
    next =>
      split at h
      next =>
        split at h <;> cases h
        exact hjump _
      next =>
        cases h
        exact hjump _

/-- Only calls are stopped for their depth. -/
theorem perform_shallow (limit : Nat) (code : Array Word) (address : Nat) {op : Opcode}
    (hop : op ≠ .call) : Throws Fault.IsShallow (perform limit code address op) := by
  have hpush : ∀ w, Throws Fault.IsShallow (push w) := push_throws fun _ => trivial
  have hpop : Throws Fault.IsShallow (pop address) := pop_throws trivial
  have himmediate : Throws Fault.IsShallow (immediate code address) := immediate_throws trivial
  have hfollow : Throws Fault.IsShallow (follow code address) :=
    follow_throws trivial fun _ => trivial
  cases op with
  | unary op =>
    rw [perform_unary]
    exact hpop.bind fun _ => (hpush _).bind fun _ => throws_pure none
  | binary op =>
    rw [perform_binary]
    refine hpop.bind fun b => hpop.bind fun a => ?_
    cases op.apply a b with
    | ok w => exact (hpush w).bind fun _ => throws_pure none
    | error e => exact throws_throw (by cases e <;> trivial)
  | load =>
    refine himmediate.bind fun slot => (localIndex_throws trivial).bind fun i s f t h => ?_
    exact (hpush _).bind (fun _ => throws_pure none) s f t h
  | store =>
    refine himmediate.bind fun slot => (localIndex_throws trivial).bind fun i => ?_
    exact hpop.bind fun w s f t h => by cases h
  | int => exact himmediate.bind fun w => (hpush w).bind fun _ => throws_pure none
  | jumpIfFalse =>
    refine hpop.bind fun w => ?_
    split
    next => exact hfollow.bind fun _ => throws_pure none
    next => exact himmediate.bind fun _ => throws_pure none
  | jump => exact hfollow.bind fun _ => throws_pure none
  | stackAdjust =>
    refine himmediate.bind fun count => Throws.bind ?_ fun _ => throws_pure none
    exact adjust_throws (fun _ => trivial) fun _ => trivial
  | call => exact absurd rfl hop
  | ret => exact hpop.bind fun w => leave_throws (fun _ => trivial) w
  | pop => exact hpop.bind fun _ => throws_pure none

/-- The depth is looked at once the arguments and the callee are found. -/
theorem enter_tooDeep_iff {argc target : Word} :
    (∃ t, enter limit code argc target address s = .error (.callDepthExceeded n) t) ↔
      n = limit ∧ limit ≤ s.depth ∧ ∃ k entry, argc.toIndex? = some k ∧
        k ≤ s.frame.top - s.frame.floor ∧ target.toIndex? = some entry ∧ entry < code.size := by
  rw [enter_apply]
  cases argc.toIndex? with
  | none => simp
  | some k =>
    by_cases hargs : s.frame.top - s.frame.floor < k
    · simp [hargs, Nat.not_le.mpr hargs]
    · cases target.toIndex? with
      | none => simp [hargs]
      | some entry =>
        by_cases hinside : code.size ≤ entry
        · simp [hargs, hinside]
        · by_cases hdepth : limit ≤ s.depth <;>
            simp [hargs, hinside, hdepth, Nat.le_of_not_lt hargs, Nat.lt_of_not_le hinside, eq_comm]

theorem callable_iff {argc target : Word} (h : decode code s.pc = .ok (.call argc target)) :
    Callable code s ↔ ∃ n entry, argc.toIndex? = some n ∧ n ≤ s.frame.top - s.frame.floor ∧
      target.toIndex? = some entry ∧ entry < code.size := by
  constructor
  · rintro ⟨_, _, n, entry, hdecode, hrest⟩
    cases h.symm.trans hdecode
    exact ⟨n, entry, hrest⟩
  · rintro ⟨n, entry, hrest⟩
    exact ⟨argc, target, n, entry, h, hrest⟩

theorem bind_pure_eq_error_iff {α β : Type} {x : Exec α} {b : β} {f : Fault} :
    (x >>= fun _ => pure b) s = .error f t ↔ x s = .error f t := by
  cases hx : x s with
  | ok a u => simp [bind_ok hx, pure, EStateM.pure]
  | error g u => simp [bind_error hx]

/-- A step is stopped for its depth exactly if it is a call that could be made at a lower one. -/
theorem step_tooDeep_iff :
    (∃ t, step limit code s = .error (.callDepthExceeded n) t) ↔
      n = limit ∧ limit ≤ s.depth ∧ Callable code s := by
  by_cases hop : opcodeAt code s.pc = some .call
  · obtain ⟨argc, target, hdecode, -, hstep⟩ | ⟨k, -, hdecode, hstep⟩ := step_call_cases limit hop
    · rw [hstep, callable_iff hdecode]
      simp only [bind_pure_eq_error_iff]
      exact enter_tooDeep_iff
    · simp [hstep, Callable, hdecode]
  · constructor
    · rintro ⟨t, h⟩
      exfalso
      rw [step_apply] at h
      split at h
      next => simp at h
      next word hword =>
        split at h
        next => simp at h
        next op hopcode =>
          refine perform_shallow limit code s.pc ?_ _ _ _ h
          rintro rfl
          exact hop (by rw [opcodeAt, hword, Option.bind_some, hopcode])
    · rintro ⟨-, -, argc, target, -, -, hdecode, -⟩
      exact absurd (opcodeAt_of_holds (holds_of_decode hdecode)) hop

end Limit

section Runs

variable {origin : Array Word} {bottom : Nat} {f : Fault}

theorem Visits.reaches (h : Visits limit code s t) : Reaches limit code s t := by
  induction h with
  | here => exact .refl s
  | next _ move ih => exact ih.trans (.of_moves move)

theorem Within.visits (h : Within limit code s t) : Visits limit code s t := by
  induction h with
  | here => exact .here
  | next _ move _ ih => exact .next ih move

/-- A run faults exactly if a step from one of its states does. -/
theorem ends_error_iff :
    Ends limit code s (.error f) ↔
      ∃ t, Visits limit code s t ∧ ∃ u, step limit code t = .error f u := by
  constructor
  · rintro ⟨steps, u, hrun⟩
    obtain ⟨t, u, hvisits, hstep⟩ := exists_visits_of_error hrun rfl
    exact ⟨t, hvisits, u, hstep⟩
  · rintro ⟨t, hvisits, u, hstep⟩
    exact hvisits.reaches.ends ⟨1, u, runFrom_of_error hstep⟩

theorem Visits.depth_le (h : Visits limit code s t) (hs : s.Confined origin bottom [])
    (hle : s.depth ≤ limit) : t.depth ≤ limit := by
  induction h with
  | here => exact hle
  | @next t t' before move ih =>
    have hdepth := (before.keeps (step_keeps limit code) hs).depth
    have hdepth' := ((before.next move).keeps (step_keeps limit code) hs).depth
    have hlength := t'.length_counters
    have hnests := nests_of_ok move
    generalize t'.counters = cs at hlength hnests
    cases hnests with
    | same => simp at hlength; omega
    | call room => simp at hlength; omega
    | ret waits => simp [waits] at hlength hdepth; omega

/-- On the way of a run, a call that is stopped has just reached the limit. -/
theorem Visits.tooDeep_iff {n : Nat} (h : Visits limit code s t)
    (hs : s.Confined origin bottom []) (hle : s.depth ≤ limit) :
    (∃ u, step limit code t = .error (.callDepthExceeded n) u) ↔
      n = limit ∧ t.depth = n ∧ Callable code t := by
  have hdepth := h.depth_le hs hle
  rw [step_tooDeep_iff]
  refine and_congr_right fun hn => and_congr_left fun _ => ?_
  omega

/-- A fault gives up one invocation at most. -/
theorem length_callers_of_error (h : step limit code s = .error f t) :
    s.callers.length ≤ t.callers.length + 1 := by
  cases hop : opcodeAt code s.pc with
  | none =>
    obtain ⟨f, pc, hstep⟩ := step_of_no_opcode limit hop
    rw [h] at hstep
    cases hstep
    exact Nat.le_succ _
  | some op =>
    have hnests := step_nests limit hop
    rw [h] at hnests
    have hlength := t.length_counters
    generalize hcounters : t.counters = cs at hlength
    rw [Leaves, hcounters] at hnests
    cases hnests with
    | same => simp at hlength; omega
    | call => simp at hlength; omega
    | ret waits => simp [waits] at hlength ⊢; omega

/-- A call that ends in a fault leaves the depth as it was, once all that waits inside of it is
given up. -/
theorem Finishes.unwound {callee : State} (hs : s.Confined origin bottom [])
    (hop : opcodeAt code s.pc = some .call) (hstep : step limit code s = .ok none callee)
    (h : Finishes limit code callee (.error f) t) :
    t.unwound (t.callers.length - s.callers.length) = s.depth := by
  obtain ⟨argc, n, entry, -, -, -, hcallee⟩ := step_call hop hstep
  have hconfined := step_keeps limit code s hs
  rw [hstep] at hconfined
  cases h with
  | @fault u _ _ before last =>
    have hlast := step_keeps limit code u (before.visits.keeps (step_keeps limit code) hconfined)
    rw [last] at hlast
    have hinside := (before.confined hconfined.self).stacked.suffix.length_le
    rw [hcallee, List.length_cons] at hinside
    have hlost := length_callers_of_error last
    rw [State.unwound_eq (Nat.sub_le _ _), hlast.depth, hs.depth]
    omega

end Runs

end Exec

structure Machine.Accounted (m : Machine) (code : Array Word) (entry base : Nat) : Prop where
  /-- The counter tells how many invocations wait, and keeps to the limit. -/
  counted : ∀ s, Exec.Visits m.limits.callDepth code (m.start entry base) s →
    s.depth = s.callers.length ∧ s.depth ≤ min m.limits.maxCallDepth 1024
  /-- A call that comes back finds the counter as it was. -/
  returned : ∀ s callee w t, Exec.Visits m.limits.callDepth code (m.start entry base) s →
    Exec.opcodeAt code s.pc = some .call →
    Exec.step m.limits.callDepth code s = .ok none callee →
    Exec.Finishes m.limits.callDepth code callee (.ok w) t → t.depth = s.depth
  /-- So does a call that ends in a fault, however deep inside. -/
  faulted : ∀ s callee f t, Exec.Visits m.limits.callDepth code (m.start entry base) s →
    Exec.opcodeAt code s.pc = some .call →
    Exec.step m.limits.callDepth code s = .ok none callee →
    Exec.Finishes m.limits.callDepth code callee (.error f) t →
      t.unwound (t.callers.length - s.callers.length) = s.depth
  ended : ∀ steps r m', m.execute steps code entry base = some (r, m') → m'.depth = 0
  /-- A step is stopped exactly if it makes a call at the limit. -/
  refused : ∀ s n, Exec.Visits m.limits.callDepth code (m.start entry base) s →
    ((∃ t, Exec.step m.limits.callDepth code s = .error (.callDepthExceeded n) t) ↔
      n = min m.limits.maxCallDepth 1024 ∧ s.depth = n ∧ Exec.Callable code s)
  /-- And a run exactly if it comes to such a step. -/
  stopped : ∀ n,
    (∃ steps m', m.execute steps code entry base = some (.error (.callDepthExceeded n), m')) ↔
      n = min m.limits.maxCallDepth 1024 ∧
        ∃ s, Exec.Visits m.limits.callDepth code (m.start entry base) s ∧ s.depth = n ∧
          Exec.Callable code s

namespace Machine

variable {m m' : Machine} {code : Array Word} {entry base steps : Nat} {r : Except Fault Word}

/-- After a run every invocation is given up. -/
theorem depth_of_execute (hbase : base ≤ m.stack.size)
    (h : m.execute steps code entry base = some (r, m')) : m'.depth = 0 := by
  rw [execute_of_le hbase] at h
  obtain ⟨o, hrun, heq⟩ := Option.map_eq_some_iff.mp h
  cases heq
  have hlast := Exec.runFrom_keeps (Exec.step_keeps _ _) (m.start_confined entry hbase) hrun
  rw [depth_after, State.unwound_eq (Nat.le_refl _), hlast.depth, Nat.sub_self]

theorem execute_error_iff {f : Fault} (hbase : base ≤ m.stack.size) :
    (∃ steps m', m.execute steps code entry base = some (.error f, m')) ↔
      Exec.Ends m.limits.callDepth code (m.start entry base) (.error f) := by
  simp only [execute_of_le hbase, Option.map_eq_some_iff, Exec.Ends]
  constructor
  · rintro ⟨steps, m', ⟨r, t⟩, hrun, heq⟩
    cases heq
    exact ⟨steps, t, hrun⟩
  · rintro ⟨steps, t, hrun⟩
    exact ⟨steps, _, _, hrun, rfl⟩

/-- Whatever the code, the limits and the stack: in every run that has room for its frame the depth
counter tells how many calls are active and keeps to the limit, it is back where it was after every
call, and the run is stopped for its depth exactly at a call that finds its arguments and its callee
but meets the limit. Without room for the frame nothing is run. -/
theorem depth_counts_calls (m : Machine) (code : Array Word) (entry base : Nat) :
    (base ≤ m.stack.size → m.Accounted code entry base) ∧
      (m.stack.size < base → ∀ steps,
        m.execute steps code entry base = some (.error (.stackOverflow m.stack.size), m)) := by
  refine ⟨fun hbase => ?_, fun hbase steps => by rw [execute, if_pos hbase]⟩
  have hstart := m.start_confined entry hbase
  have hconfined : ∀ s, Exec.Visits m.limits.callDepth code (m.start entry base) s →
      s.Confined m.stack base [] := fun s hs => hs.keeps (Exec.step_keeps _ _) hstart
  refine ⟨?_, ?_, ?_, ?_, ?_, ?_⟩
  · intro s hs
    exact ⟨(hconfined s hs).depth, hs.depth_le hstart (Nat.zero_le _)⟩
  · intro s callee w t hs hop hstep hfinishes
    obtain ⟨argc, n, -, -, hback⟩ := hfinishes.cameBack (hconfined s hs) hop hstep
    exact hback.depth
  · intro s callee f t hs hop hstep hfinishes
    exact hfinishes.unwound (hconfined s hs) hop hstep
  · intro steps r m' h
    exact depth_of_execute hbase h
  · intro s n hs
    exact hs.tooDeep_iff hstart (Nat.zero_le _)
  · intro n
    rw [execute_error_iff hbase, Exec.ends_error_iff]
    constructor
    · rintro ⟨s, hs, hstep⟩
      obtain ⟨hn, hdepth, hcall⟩ := (hs.tooDeep_iff hstart (Nat.zero_le _)).mp hstep
      exact ⟨hn, s, hs, hdepth, hcall⟩
    · rintro ⟨hn, s, hs, hdepth, hcall⟩
      exact ⟨s, hs, (hs.tooDeep_iff hstart (Nat.zero_le _)).mpr ⟨hn, hdepth, hcall⟩⟩

/-- Code that calls itself until it is stopped, three calls deep. -/
theorem depth_counts_calls_runaway :
    0 ≤ (new ⟨4, 3⟩).stack.size ∧
      (∃ m', (new ⟨4, 3⟩).execute 4 #[Opcode.call.word, 0, 0] 0 0 =
        some (.error (.callDepthExceeded 3), m') ∧ m'.depth = 0) ∧
      (∃ s, Exec.Visits 3 #[Opcode.call.word, 0, 0] ((new ⟨4, 3⟩).start 0 0) s ∧ s.depth = 3 ∧
        Exec.Callable #[Opcode.call.word, 0, 0] s) ∧
      ∃ callee t, Exec.step 3 #[Opcode.call.word, 0, 0] ((new ⟨4, 3⟩).start 0 0) =
          .ok none callee ∧
        Exec.Finishes 3 #[Opcode.call.word, 0, 0] callee (.error (.callDepthExceeded 3)) t ∧
        t.depth = 3 ∧ t.unwound 3 = 0 := by
  have hall := (depth_counts_calls (new ⟨4, 3⟩) #[Opcode.call.word, 0, 0] 0 0).1 (Nat.zero_le _)
  have hrun : ∃ m', (new ⟨4, 3⟩).execute 4 #[Opcode.call.word, 0, 0] 0 0 =
      some (.error (.callDepthExceeded 3), m') := ⟨_, rfl⟩
  obtain ⟨m', hrun⟩ := hrun
  have hfinishes : Exec.Finishes 3 #[Opcode.call.word, 0, 0]
      ⟨(new ⟨4, 3⟩).stack, 4, ⟨0, 0, 0⟩, 0, 1, [⟨⟨0, 0, 0⟩, 3, 0⟩]⟩ (.error (.callDepthExceeded 3))
      ⟨(new ⟨4, 3⟩).stack, 4, ⟨0, 0, 0⟩, 3, 3, List.replicate 3 ⟨⟨0, 0, 0⟩, 3, 0⟩⟩ :=
    .fault (.next (.next .here rfl (by decide)) rfl (by decide)) rfl
  exact ⟨Nat.zero_le _, ⟨m', hrun, hall.ended 4 _ m' hrun⟩, ((hall.stopped 3).mp ⟨4, m', hrun⟩).2,
    _, _, rfl, hfinishes, rfl, hall.faulted _ _ _ _ .here rfl rfl hfinishes⟩

end Machine

end Wordcode
