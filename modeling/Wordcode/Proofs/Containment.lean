import Mathlib.Data.List.Forall2
import Wordcode.Proofs.ControlFlow
import Wordcode.Proofs.Dispatch
import Wordcode.Proofs.Isolation

/-!
Invocations stay in their bodies. Main statement: an invocation takes its instructions from the body
it was begun at, or faults at the end of the stream.
-/

namespace Wordcode

def State.counters (s : State) : List Nat := s.pc :: s.callers.map Caller.pc

inductive Instruction.Leads (a : Nat) (rest : List Nat) : Instruction → List Nat → Prop where
  | next {i : Instruction} (falls : ∀ offset, i ≠ .jump offset) :
      Leads a rest i ((a + i.width) :: rest)
  | jump {i : Instruction} {target : Word} {n : Nat} (leads : i.jumpTarget a = some target)
      (index : target.toIndex? = some n) : Leads a rest i (n :: rest)
  | call {argc target : Word} {entry : Nat} (index : target.toIndex? = some entry) :
      Leads a rest (.call argc target) (entry :: (a + 3) :: rest)
  | ret : Leads a rest .ret rest

namespace Exec

section Counters

variable {cs : List Nat} (address : Nat)

theorem pop_counters : Keeps (fun s => s.counters = cs) (pop address) := by
  intro s hs
  rw [pop_apply]
  split <;> exact hs

theorem push_counters (w : Word) : Keeps (fun s => s.counters = cs) (push w) := by
  intro s hs
  rw [push_apply]
  split <;> exact hs

theorem localIndex_counters (slot : Word) :
    Keeps (fun s => s.counters = cs) (localIndex slot address) := by
  intro s hs
  rcases localIndex_cases address slot s with ⟨i, -, -, hok⟩ | herror
  · rw [hok]
    exact hs
  · rw [herror]
    exact hs

theorem loadSlot_counters (slot : Word) :
    Keeps (fun s => s.counters = cs) (loadSlot slot address) := by
  refine (localIndex_counters address slot).bind fun i s hs => ?_
  rw [get_bind]
  exact (push_counters _).bind (fun _ => keeps_pure none) s hs

theorem storeSlot_counters (slot : Word) :
    Keeps (fun s => s.counters = cs) (storeSlot slot address) :=
  (localIndex_counters address slot).bind fun _ => (pop_counters address).bind fun _ _ hs => hs

theorem adjust_counters (count : Word) :
    Keeps (fun s => s.counters = cs) (adjust count address) := by
  intro s hs
  rw [adjust_apply]
  cases count.toIndex? with
  | none => exact hs
  | some locals =>
    dsimp only
    split <;> exact hs

end Counters

section Leads

variable {limit : Nat} {code : Array Word} {s t : State} {a : Nat} {i : Instruction}

theorem leap_eq_ok {target : Option Word} (h : leap code a target s = .ok () t) :
    ∃ w n, target = some w ∧ w.toIndex? = some n ∧ t = { s with pc := n } := by
  cases target with
  | none => cases h
  | some w =>
    dsimp only [leap] at h
    cases hw : w.toIndex? with
    | none =>
      rw [hw] at h
      cases h
    | some n =>
      rw [hw] at h
      dsimp only at h
      split at h
      next =>
        cases h
        exact ⟨w, n, rfl, hw, rfl⟩
      next => cases h

theorem counters_of_pop {w : Word} (h : pop a s = .ok w t) : t.counters = s.counters := by
  have hkept := pop_counters a s rfl
  rwa [h] at hkept

theorem leads_next (hi : ∀ offset, i ≠ .jump offset) (hpc : s.pc = a + i.width)
    (hk : Keeps (fun u => u.counters = s.counters) (i.perform limit code a))
    (h : i.perform limit code a s = .ok none t) :
    i.Leads a (s.callers.map Caller.pc) t.counters := by
  have hkept := hk s rfl
  rw [h] at hkept
  have hcounters : t.counters = (a + i.width) :: s.callers.map Caller.pc := by
    rw [← hpc]
    exact hkept
  rw [hcounters]
  exact .next hi

theorem perform_leads (hpc : s.pc = a + i.width) (h : i.perform limit code a s = .ok none t) :
    i.Leads a (s.callers.map Caller.pc) t.counters := by
  cases i with
  | unary op =>
    refine leads_next nofun hpc ?_ h
    exact (pop_counters a).bind fun _ => (push_counters _).bind fun _ => keeps_pure none
  | binary op =>
    refine leads_next nofun hpc ?_ h
    refine (pop_counters a).bind fun y => (pop_counters a).bind fun x => ?_
    cases op.apply x y with
    | ok w => exact (push_counters w).bind fun _ => keeps_pure none
    | error e => exact keeps_throw _
  | load slot => exact leads_next nofun hpc (loadSlot_counters a slot) h
  | store slot => exact leads_next nofun hpc (storeSlot_counters a slot) h
  | int w =>
    refine leads_next nofun hpc ?_ h
    exact (push_counters w).bind fun _ => keeps_pure none
  | jumpIfFalse offset =>
    obtain ⟨w, u, hpop, hrest⟩ := bind_eq_ok h
    obtain ⟨hupc, hcallers⟩ := List.cons.inj (counters_of_pop hpop)
    rw [← hcallers]
    -- The jump is taken or passed over.
    split at hrest
    next =>
      obtain ⟨_, v, hleap, hpure⟩ := bind_eq_ok hrest
      obtain ⟨target, n, htarget, hn, rfl⟩ := leap_eq_ok hleap
      cases hpure
      exact .jump htarget hn
    next =>
      cases hrest
      rw [State.counters, hupc, hpc]
      exact .next nofun
  | jump offset =>
    obtain ⟨_, u, hleap, hpure⟩ := bind_eq_ok h
    obtain ⟨target, n, htarget, hn, rfl⟩ := leap_eq_ok hleap
    cases hpure
    exact .jump htarget hn
  | stackAdjust count =>
    refine leads_next nofun hpc ?_ h
    exact (adjust_counters a count).bind fun _ => keeps_pure none
  | call argc target =>
    obtain ⟨_, u, henter, hpure⟩ := bind_eq_ok h
    obtain ⟨n, entry, -, hentry, -, -, rfl⟩ := enter_eq_ok henter
    cases hpure
    rw [State.counters, List.map_cons, hpc]
    exact .call hentry
  | ret =>
    obtain ⟨w, u, hpop, hleave⟩ := bind_eq_ok h
    obtain ⟨-, hcallers⟩ := List.cons.inj (counters_of_pop hpop)
    rw [← hcallers]
    rcases leave_cases w u with ⟨-, hanswer⟩ | ⟨c, callers, hc, -, hback⟩ | ⟨f, v, hfault, -⟩
    · rw [hanswer] at hleave
      cases hleave
    · rw [hback] at hleave
      cases hleave
      rw [hc]
      exact .ret
    · rw [hfault] at hleave
      cases hleave
  | pop =>
    refine leads_next nofun hpc ?_ h
    exact (pop_counters a).bind fun _ => keeps_pure none

/-- A step goes where the instruction at the program counter leads. -/
theorem step_leads (hcode : code.size < addressSpace) (h : step limit code s = .ok none t) :
    ∃ i, decode code s.pc = .ok i ∧ i.Leads s.pc (s.callers.map Caller.pc) t.counters := by
  obtain ⟨i, hi, hperform⟩ := step_eq_ok hcode h
  have hleads := perform_leads rfl hperform
  exact ⟨i, hi, hleads⟩

end Leads

end Exec

namespace Image

def Stands (im : Image) (pc : Nat) (b : Body) : Prop := pc = im.code.size ∨ ∃ i, im.Has b pc i

structure Locates (im : Image) (s : State) (bs : List Body) : Prop where
  bodies : ∀ b ∈ bs, b ∈ im.bodies
  stands : List.Forall₂ im.Stands s.counters bs

section Steps

variable {im : Image} {limit : Nat} {s t : State} {b : Body} {bs : List Body}

theorem decode_of_has {a : Nat} {i : Instruction} (h : im.Has b a i) :
    decode im.code a = .ok i := decode_of_mem_sweepFrom h

theorem Locates.length (h : im.Locates s bs) : bs.length = s.callers.length + 1 := by
  rw [← h.stands.length_eq, State.counters, List.length_cons, List.length_map]

theorem Locates.head (h : im.Locates s (b :: bs)) : im.Stands s.pc b :=
  (List.forall₂_cons.mp h.stands).1

inductive Shifts (t : State) : List Body → List Body → Prop where
  | stay (bs : List Body) : Shifts t bs bs
  | enter {b : Body} (bs : List Body) (start : t.pc = b.start) : Shifts t bs (b :: bs)
  | leave (b : Body) (bs : List Body) : Shifts t (b :: bs) bs

theorem Locates.step (h : im.Locates s bs) (hseal : im.Sealed)
    (hsize : im.code.size < addressSpace) (hstep : Exec.step limit im.code s = .ok none t) :
    ∃ bs', Shifts t bs bs' ∧ im.Locates t bs' := by
  obtain ⟨hmem, hstands⟩ := h
  obtain ⟨b, bs, hpc, hrest, rfl⟩ := List.forall₂_cons_left_iff.mp hstands
  obtain ⟨hb, hbs⟩ := List.forall_mem_cons.mp hmem
  obtain ⟨i, hdecode, hleads⟩ := Exec.step_leads hsize hstep
  have hclosed := hseal.closed b hb
  -- At the end of the stream there is no step.
  have hi : im.Has b s.pc i := by
    rcases hpc with hend | ⟨j, hj⟩
    · rw [hend] at hdecode
      simp [decode] at hdecode
    · cases (decode_of_has hj).symm.trans hdecode
      exact hj
  generalize hcounters : t.counters = cs at hleads
  cases hleads with
  | next falls =>
    refine ⟨b :: bs, .stay _, hmem, ?_⟩
    rw [hcounters]
    rcases hclosed.next s.pc i hi with ⟨offset, hjump⟩ | hnext
    · exact absurd hjump (falls offset)
    · exact .cons (Or.inr hnext) hrest
  | jump leads index =>
    refine ⟨b :: bs, .stay _, hmem, ?_⟩
    obtain ⟨n, hn, hlands⟩ := hclosed.lands s.pc i _ hi leads
    rw [index] at hn
    cases hn
    rw [hcounters]
    exact .cons hlands hrest
  | call index =>
    obtain ⟨b', hb', htarget, -⟩ := hclosed.calls s.pc _ _ hi
    rw [index] at htarget
    cases htarget
    refine ⟨b' :: b :: bs, .enter _ (List.cons.inj hcounters).1,
      List.forall_mem_cons.mpr ⟨hb', hmem⟩, ?_⟩
    -- A call is not the last instruction of its body, so the caller goes on inside.
    have hback : ∃ j, im.Has b (s.pc + 3) j :=
      (hclosed.next s.pc _ hi).resolve_left (by simp)
    rw [hcounters]
    exact .cons (Or.inr (hseal.closed b' hb').first) (.cons (Or.inr hback) hrest)
  | ret =>
    refine ⟨bs, .leave _ _, hbs, ?_⟩
    rw [hcounters]
    exact hrest

end Steps

end Image

namespace Exec

variable {im : Image} {limit : Nat} {code : Array Word} {s t : State} {b : Body} {bs : List Body}

/-- The state in which an invocation of the run from `origin` begins: the outermost one at once, and
another one with each call. -/
inductive Begins (limit : Nat) (code : Array Word) (origin : State) : State → Prop where
  | outermost : Begins limit code origin origin
  | call {s t : State} (before : Visits limit code origin s)
      (move : step limit code s = .ok none t) (deeper : s.callers.length < t.callers.length) :
      Begins limit code origin t

theorem step_length_callers (hcode : code.size < addressSpace)
    (h : step limit code s = .ok none t) : t.callers.length ≤ s.callers.length + 1 := by
  obtain ⟨i, -, hleads⟩ := step_leads hcode h
  have hlength : t.counters.length = t.callers.length + 1 := by
    rw [State.counters, List.length_cons, List.length_map]
  generalize t.counters = cs at hleads hlength
  cases hleads <;> simp at hlength <;> omega

/-- Of the invocations that are active in a state, there is one at each depth. -/
theorem Visits.exists_begins {origin : State} (h : Visits limit code origin t)
    (hcode : code.size < addressSpace) {n : Nat} (hn : n ≤ t.callers.length)
    (horigin : origin.callers = []) :
    ∃ s, Begins limit code origin s ∧ s.callers.length = n ∧ Within limit code s t := by
  induction h generalizing n with
  | here =>
    rw [horigin] at hn
    cases Nat.le_zero.mp hn
    exact ⟨origin, .outermost, by rw [horigin]; rfl, .here⟩
  | @next t t' before move ih =>
    by_cases hdeeper : t.callers.length < n
    · have hle := step_length_callers hcode move
      exact ⟨t', .call before move (by omega), by omega, .here⟩
    · obtain ⟨s, hs, hlength, hwithin⟩ := ih (Nat.le_of_not_lt hdeeper)
      exact ⟨s, hs, hlength, .next hwithin move (by omega)⟩

/-- The outermost invocation lasts as long as the run. -/
theorem Visits.within {origin : State} (h : Visits limit code origin t)
    (horigin : origin.callers = []) : Within limit code origin t := by
  induction h with
  | here => exact .here
  | next _ move ih => exact .next ih move (by rw [horigin]; exact Nat.zero_le _)

variable (hseal : im.Sealed) (hsize : im.code.size < addressSpace)

include hseal hsize

/-- While an invocation runs, further ones may run inside of it. -/
theorem Within.locates (h : Within limit im.code s t) (hs : im.Locates s (b :: bs)) :
    ∃ inner, im.Locates t (inner ++ b :: bs) := by
  induction h with
  | here => exact ⟨[], hs⟩
  | @next t t' _ move within ih =>
    obtain ⟨inner, ht⟩ := ih
    obtain ⟨bs', hshifts, ht'⟩ := ht.step hseal hsize move
    generalize hactive : inner ++ b :: bs = active at hshifts
    cases hshifts with
    | stay =>
      rw [← hactive] at ht'
      exact ⟨inner, ht'⟩
    | @enter b' =>
      rw [← hactive] at ht'
      exact ⟨b' :: inner, ht'⟩
    | leave =>
      cases inner with
      | nil =>
        -- Its return would leave fewer callers than it began with.
        cases hactive
        have hlength := hs.length
        have hlength' := ht'.length
        rw [List.length_cons] at hlength
        omega
      | cons c inner =>
        cases hactive
        exact ⟨inner, ht'⟩

/-- An invocation begins at the start of a body. -/
theorem Begins.locates {origin : State} (h : Begins limit im.code origin s)
    (hcallers : origin.callers = []) (horigin : im.Locates origin [b])
    (hstart : origin.pc = b.start) :
    ∃ b bs, im.Locates s (b :: bs) ∧ s.pc = b.start := by
  cases h with
  | outermost => exact ⟨b, [], horigin, hstart⟩
  | @call s t before move deeper =>
    obtain ⟨inner, hs⟩ := (before.within hcallers).locates hseal hsize horigin
    obtain ⟨bs', hshifts, ht⟩ := hs.step hseal hsize move
    have hlength := hs.length
    have hlength' := ht.length
    generalize inner ++ [b] = active at hshifts hlength
    cases hshifts with
    | stay => omega
    | enter _ start => exact ⟨_, _, ht, start⟩
    | leave =>
      rw [List.length_cons] at hlength
      omega

end Exec

namespace Program

theorem start_locates {p : Program} {im : Image} (hc : p.compile = .ok im)
    (hsize : im.code.size < addressSpace) (m : Machine) (base : Nat) :
    ∃ b, im.Locates (m.start im.entry base) [b] ∧ im.entry = b.start := by
  have hmain : p.mainFunction.placed (p.start 0) ∈ im.bodies := placed_mem_bodies hc rfl
  have hentry : im.entry = 0 := (image_of_compile hc).2.2
  refine ⟨_, ⟨List.forall_mem_singleton.mpr hmain, .cons (Or.inr ?_) .nil⟩, hentry⟩
  rw [Machine.start, hentry]
  exact first_of_compile hc hsize hmain

/-- In every run of a program, an invocation that begins at the start of a body takes all its
instructions from this body, or stands at the end of the stream and faults there. And each state of
the run belongs to an invocation at each depth up to its own. -/
theorem invocations_stay_in_body (p : Program) (im : Image) (hc : p.compile = .ok im)
    (hsize : im.code.size < addressSpace) (m : Machine) (base : Nat) :
    (∀ s, Exec.Begins m.limits.callDepth im.code (m.start im.entry base) s →
      ∃ b, im.bodyAt? s.pc = some b ∧
        ∀ t, Exec.Within m.limits.callDepth im.code s t →
          t.callers.length = s.callers.length →
            (∃ i, decode im.code t.pc = .ok i ∧ b.start ≤ t.pc ∧ t.pc + i.width ≤ b.stop) ∨
            (t.pc = im.code.size ∧
              Exec.step m.limits.callDepth im.code t = .error (.fellOffEnd im.code.size) t)) ∧
    ∀ t, Exec.Visits m.limits.callDepth im.code (m.start im.entry base) t →
      ∀ n ≤ t.callers.length, ∃ s,
        Exec.Begins m.limits.callDepth im.code (m.start im.entry base) s ∧
        s.callers.length = n ∧ Exec.Within m.limits.callDepth im.code s t := by
  have hseal := sealed_of_compile hc hsize
  obtain ⟨main, hmain, hentry⟩ := start_locates hc hsize m base
  refine ⟨?_, fun t ht n hn => ht.exists_begins hsize hn rfl⟩
  intro s hs
  obtain ⟨b, bs, hlocates, hpc⟩ := hs.locates hseal hsize rfl hmain hentry
  have hb : b ∈ im.bodies := hlocates.bodies b List.mem_cons_self
  refine ⟨b, by rw [hpc]; exact hseal.bodyAt? hb, ?_⟩
  intro t ht hdepth
  obtain ⟨inner, hinner⟩ := ht.locates hseal hsize hlocates
  -- At the depth where it began, the invocation itself is running.
  have hnil : inner = [] := by
    have hlength := hlocates.length
    have hlength' := hinner.length
    rw [List.length_append] at hlength'
    exact List.eq_nil_of_length_eq_zero (by omega)
  rw [hnil] at hinner
  rcases hinner.head with hend | ⟨i, hi⟩
  · refine Or.inr ⟨hend, ?_⟩
    rw [Exec.step_apply, hend, Array.getElem?_eq_none (Nat.le_refl _)]
  · exact Or.inl ⟨i, Image.decode_of_has hi, (hseal.closed b hb).inside t.pc i hi⟩

end Program

def Sample.fallingThrough : Program :=
  { functions := [
      { name := "stop", params := [], body := [] },
      { name := "seven", params := [], body := [ret (int 7)] }]
    main := [ret (call "stop" [])] }

theorem Program.invocations_stay_in_body_falling :
    ∃ im s t, Sample.fallingThrough.compile = .ok im ∧ im.code.size < addressSpace ∧
      Exec.Begins 512 im.code (Machine.start ⟨{}, #[0], 0⟩ im.entry 0) s ∧
      Exec.Within 512 im.code s t ∧ s.callers.length = 1 ∧ t.callers.length = s.callers.length ∧
      ∃ b, im.bodyAt? s.pc = some b ∧
        ((∃ i, decode im.code t.pc = .ok i ∧ b.start ≤ t.pc ∧ t.pc + i.width ≤ b.stop) ∨
          (t.pc = im.code.size ∧
            Exec.step 512 im.code t = .error (.fellOffEnd im.code.size) t)) := by
  have hsize : Sample.fallingThrough.emission.patched.size < addressSpace := by decide
  have hcall : Exec.Visits 512 Sample.fallingThrough.emission.patched
      (Machine.start ⟨{}, #[0], 0⟩ 0 0) ⟨#[0], 4096, ⟨0, 0, 0⟩, 2, 0, []⟩ := .next .here rfl
  have hbegins : Exec.Begins 512 Sample.fallingThrough.emission.patched
      (Machine.start ⟨{}, #[0], 0⟩ 0 0) ⟨#[0], 4096, ⟨0, 0, 0⟩, 8, 1, [⟨⟨0, 0, 0⟩, 5, 0⟩]⟩ :=
    .call hcall rfl (by decide)
  have hwithin : Exec.Within 512 Sample.fallingThrough.emission.patched
      ⟨#[0], 4096, ⟨0, 0, 0⟩, 8, 1, [⟨⟨0, 0, 0⟩, 5, 0⟩]⟩
      ⟨#[0], 4096, ⟨0, 0, 0⟩, 19, 1, [⟨⟨0, 0, 0⟩, 5, 0⟩]⟩ :=
    .next (.next .here rfl (by decide)) rfl (by decide)
  obtain ⟨b, hb, hstays⟩ := (invocations_stay_in_body Sample.fallingThrough _ rfl hsize
    ⟨{}, #[0], 0⟩ 0).1 _ hbegins
  exact ⟨_, _, _, rfl, hsize, hbegins, hwithin, rfl, rfl, b, hb, hstays _ hwithin rfl⟩

end Wordcode
