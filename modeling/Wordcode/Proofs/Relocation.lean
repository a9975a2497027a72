import Mathlib.Data.List.Forall2
import Wordcode.Proofs.Frames

/-!
Runs at other places of other stacks. Main statements: only the room that is left shows in the
result, and wider limits change no result but the faults of hitting a limit.
-/

namespace Wordcode

structure Frame.Mirrors (b₁ b₂ : Nat) (f g : Frame) : Prop where
  base : g.base + b₁ = f.base + b₂
  locals : g.locals = f.locals
  top : g.top + b₁ = f.top + b₂

theorem Frame.Mirrors.floor {b₁ b₂ : Nat} {f g : Frame} (h : f.Mirrors b₁ b₂ g) :
    g.floor + b₁ = f.floor + b₂ := by
  have hbase := h.base
  have hlocals := h.locals
  unfold Frame.floor
  omega

structure Caller.Mirrors (b₁ b₂ : Nat) (c d : Caller) : Prop where
  frame : c.frame.Mirrors b₁ b₂ d.frame
  pc : d.pc = c.pc
  argc : d.argc = c.argc

def Copied (b₁ b₂ top : Nat) (stack stack' : Array Word) : Prop :=
  ∀ i j, b₁ ≤ i → i < top → j + b₁ = i + b₂ → stack'[j]? = stack[i]?

namespace Copied

variable {b₁ b₂ top top' i j : Nat} {stack stack' : Array Word}

theorem mono (h : Copied b₁ b₂ top stack stack') (hle : top' ≤ top) :
    Copied b₁ b₂ top' stack stack' :=
  fun i j hi hlt => h i j hi (Nat.lt_of_lt_of_le hlt hle)

theorem getD (h : Copied b₁ b₂ top stack stack') (hi : b₁ ≤ i) (hlt : i < top)
    (hj : j + b₁ = i + b₂) : stack'.getD j 0 = stack.getD i 0 := by
  rw [Array.getD_eq_getD_getElem?, Array.getD_eq_getD_getElem?, h i j hi hlt hj]

/-- A word written to both stacks may lie right above the cells that they share. -/
theorem set (h : Copied b₁ b₂ top stack stack') (w : Word) (hj : j + b₁ = i + b₂)
    (hsize : i < stack.size) (hsize' : j < stack'.size) (hcover : ∀ n < top', n < top ∨ n = i) :
    Copied b₁ b₂ top' (stack.setIfInBounds i w) (stack'.setIfInBounds j w) := by
  intro n m hn hlt hm
  by_cases heq : n = i
  · have hmj : m = j := by omega
    rw [heq, hmj, Array.getElem?_setIfInBounds_self_of_lt hsize,
      Array.getElem?_setIfInBounds_self_of_lt hsize']
  · rw [Array.getElem?_setIfInBounds_ne (by omega), Array.getElem?_setIfInBounds_ne (by omega)]
    exact h n m hn ((hcover n hlt).resolve_right heq) hm

/-- Cells that are new to both frames hold zeros, whatever was in them. -/
theorem clear {stop stop' : Nat} (h : Copied b₁ b₂ top stack stack') (htop : top' + b₁ = top + b₂)
    (hstop : stop' + b₁ = stop + b₂) (hsize : stop ≤ stack.size) (hsize' : stop' ≤ stack'.size) :
    Copied b₁ b₂ stop (Exec.clear stack top stop) (Exec.clear stack' top' stop') := by
  intro i j hi hlt hj
  rw [Exec.getElem?_clear, Exec.getElem?_clear]
  by_cases hnew : top ≤ i
  · rw [if_pos (by omega), if_pos (by omega)]
  · rw [if_neg (by omega), if_neg (by omega)]
    exact h i j hi (Nat.lt_of_not_le hnew) hj

end Copied

/-- The second state is the first one at another place, with no less room above. -/
structure State.Mirrors (b₁ b₂ : Nat) (s t : State) : Prop where
  pc : t.pc = s.pc
  depth : t.depth = s.depth
  frame : s.frame.Mirrors b₁ b₂ t.frame
  callers : List.Forall₂ (Caller.Mirrors b₁ b₂) s.callers t.callers
  cells : Copied b₁ b₂ s.frame.top s.stack t.stack
  room : s.stack.size + b₂ ≤ t.stack.size + b₁

theorem State.Mirrors.goTo {b₁ b₂ : Nat} {s t : State} (h : s.Mirrors b₁ b₂ t) (pc : Nat) :
    { s with pc }.Mirrors b₁ b₂ { t with pc } :=
  ⟨rfl, h.depth, h.frame, h.callers, h.cells, h.room⟩

namespace Exec

section Alike

variable {α β : Type} {excused : Fault → Prop} {origin : Array Word} {b₁ b₂ : Nat}

/-- Two actions come to the same, or the first to a fault that is excused. -/
inductive Alike (excused : Fault → Prop) (b₁ b₂ : Nat) :
    EStateM.Result Fault State α → EStateM.Result Fault State α → Prop where
  | ok {a : α} {s t : State} (states : s.Mirrors b₁ b₂ t) : Alike excused b₁ b₂ (.ok a s) (.ok a t)
  | error {f : Fault} {s t : State} : Alike excused b₁ b₂ (.error f s) (.error f t)
  | excused {f : Fault} {s : State} {result : EStateM.Result Fault State α} (h : excused f) :
      Alike excused b₁ b₂ (.error f s) result

def Follows (excused : Fault → Prop) (origin : Array Word) (b₁ b₂ : Nat) (x y : Exec α) : Prop :=
  ∀ s t, s.Confined origin b₁ [] → s.Mirrors b₁ b₂ t → Alike excused b₁ b₂ (x s) (y t)

theorem follows_pure (a : α) : Follows excused origin b₁ b₂ (pure a) (pure a) :=
  fun _ _ _ h => .ok h

theorem follows_throw (f : Fault) :
    Follows excused origin b₁ b₂ (throw f : Exec α) (throw f) := fun _ _ _ _ => .error

theorem Alike.bind {x y : Exec α} {k l : α → Exec β} {s t : State}
    (h : Alike excused b₁ b₂ (x s) (y t))
    (hk : ∀ a s' t', x s = .ok a s' → s'.Mirrors b₁ b₂ t' → Alike excused b₁ b₂ (k a s') (l a t')) :
    Alike excused b₁ b₂ ((x >>= k) s) ((y >>= l) t) := by
  generalize hx : x s = r, hy : y t = r' at h
  cases h with
  | ok states =>
    rw [bind_ok hx, bind_ok hy]
    exact hk _ _ _ hx states
  | error =>
    rw [bind_error hx, bind_error hy]
    exact .error
  | excused h =>
    rw [bind_error hx]
    exact .excused h

theorem Follows.bind {x y : Exec α} {k l : α → Exec β} (h : Follows excused origin b₁ b₂ x y)
    (hkeeps : Keeps (State.Confined origin b₁ []) x)
    (hk : ∀ a, Follows excused origin b₁ b₂ (k a) (l a)) :
    Follows excused origin b₁ b₂ (x >>= k) (y >>= l) := by
  intro s t hs hst
  refine (h s t hs hst).bind ?_
  intro a s' t' hx hst'
  have hleft := hkeeps s hs
  rw [hx] at hleft
  exact hk a s' t' hleft hst'

end Alike

section Actions

variable {excused : Fault → Prop} {origin : Array Word} {b₁ b₂ : Nat} (address : Nat)
  (hoverflow : ∀ capacity, excused (.stackOverflow capacity))

theorem pop_follows : Follows excused origin b₁ b₂ (pop address) (pop address) := by
  intro s t hs h
  have hfloor := h.frame.floor
  have htop := h.frame.top
  rw [pop_apply, pop_apply]
  by_cases hlt : s.frame.floor < s.frame.top
  · have hbottom := Nat.le_trans hs.bottom_le_base s.frame.base_le_floor
    have hcell : t.stack.getD (t.frame.top - 1) 0 = s.stack.getD (s.frame.top - 1) 0 :=
      h.cells.getD (by omega) (by omega) (by omega)
    rw [if_pos hlt, if_pos (by omega), hcell]
    exact .ok ⟨h.pc, h.depth, ⟨h.frame.base, h.frame.locals, by dsimp only; omega⟩, h.callers,
      h.cells.mono (Nat.sub_le _ _), h.room⟩
  · rw [if_neg hlt, if_neg (by omega)]
    exact .error

theorem immediate_follows (code : Array Word) :
    Follows excused origin b₁ b₂ (immediate code address) (immediate code address) := by
  intro s t _ h
  rw [immediate_apply, immediate_apply, h.pc]
  cases code[s.pc]? with
  | none => exact .error
  | some w => exact .ok (h.goTo _)

theorem follow_follows (code : Array Word) :
    Follows excused origin b₁ b₂ (follow code address) (follow code address) := by
  intro s t _ h
  rw [follow_apply, follow_apply, h.pc]
  cases code[s.pc]? with
  | none => exact .error
  | some offset =>
    dsimp only
    cases Word.add? (.ofNat s.pc) offset with
    | none => exact .error
    | some target =>
      dsimp only
      cases target.toIndex? with
      | none => exact .error
      | some i =>
        dsimp only
        split
        next => exact .ok (h.goTo i)
        next => exact .error

/-- The slots of mirrored frames. -/
theorem localIndex_mirrors {s t : State} (h : s.Mirrors b₁ b₂ t) (slot : Word) :
    (∃ i j, s.frame.base ≤ i ∧ i < s.frame.floor ∧ j + b₁ = i + b₂ ∧
      localIndex slot address s = .ok i s ∧ localIndex slot address t = .ok j t) ∨
    (localIndex slot address s = .error (.invalidSlot slot address) s ∧
      localIndex slot address t = .error (.invalidSlot slot address) t) := by
  have hbase := h.frame.base
  rw [localIndex_apply, localIndex_apply, h.frame.locals]
  cases slot.toIndex? with
  | none => exact Or.inr ⟨rfl, rfl⟩
  | some n =>
    dsimp only
    split
    next hlt =>
      exact Or.inl ⟨_, _, Nat.le_add_right _ n, Nat.add_lt_add_left hlt _, by omega, rfl, rfl⟩
    next => exact Or.inr ⟨rfl, rfl⟩

theorem store_follows (slot : Word) :
    Follows excused origin b₁ b₂ (storeSlot slot address) (storeSlot slot address) := by
  intro s t hs h
  unfold storeSlot
  rcases localIndex_mirrors address h slot with ⟨i, j, -, hlt, hij, hi, hj⟩ | ⟨hi, hj⟩
  · rw [bind_ok hi, bind_ok hj]
    refine (pop_follows address s t hs h).bind ?_
    intro w s' t' hpop h'
    have hs' := pop_keeps address s hs
    rw [hpop] at hs'
    have hsize : i < s'.stack.size := by
      have hfloor := hs.fits.floor_le
      have htop := hs.fits.top_le
      rw [hs'.untouched.size, ← hs.untouched.size]
      omega
    have hroom := h'.room
    have hcells := h'.cells.set w hij hsize (by omega) fun n hn => Or.inl hn
    refine .ok ⟨h'.pc, h'.depth, h'.frame, h'.callers, hcells, ?_⟩
    rw [Array.size_setIfInBounds, Array.size_setIfInBounds]
    exact hroom
  · rw [bind_error hi, bind_error hj]
    exact .error

include hoverflow

theorem push_follows (w : Word) : Follows excused origin b₁ b₂ (push w) (push w) := by
  intro s t _ h
  have htop := h.frame.top
  have hroom := h.room
  rw [push_apply, push_apply]
  by_cases hlt : s.frame.top < s.stack.size
  · have hcells := @Copied.set _ _ _ (s.frame.top + 1) _ _ _ _ h.cells w htop hlt (by omega)
      fun n hn => Nat.lt_or_eq_of_le (Nat.le_of_lt_succ hn)
    rw [if_pos hlt, if_pos (by omega)]
    refine .ok ⟨h.pc, h.depth, ⟨h.frame.base, h.frame.locals, by dsimp only; omega⟩, h.callers,
      hcells, ?_⟩
    rw [Array.size_setIfInBounds, Array.size_setIfInBounds]
    exact hroom
  · rw [if_neg hlt]
    exact .excused (hoverflow _)

theorem load_follows (slot : Word) :
    Follows excused origin b₁ b₂ (loadSlot slot address) (loadSlot slot address) := by
  intro s t hs h
  unfold loadSlot
  rcases localIndex_mirrors address h slot with ⟨i, j, hbase, hlt, hij, hi, hj⟩ | ⟨hi, hj⟩
  · have hbottom := hs.bottom_le_base
    have hfloor := hs.fits.floor_le
    have hcell : t.stack.getD j 0 = s.stack.getD i 0 := h.cells.getD (by omega) (by omega) hij
    rw [bind_ok hi, bind_ok hj, get_bind, get_bind, hcell]
    exact (push_follows hoverflow _).bind (push_keeps _) (fun _ => follows_pure none) s t hs h
  · rw [bind_error hi, bind_error hj]
    exact .error

theorem adjust_follows (count : Word) :
    Follows excused origin b₁ b₂ (adjust count address) (adjust count address) := by
  intro s t _ h
  have hbase := h.frame.base
  have hroom := h.room
  rw [adjust_apply, adjust_apply]
  cases count.toIndex? with
  | none => exact .error
  | some locals =>
    dsimp only
    by_cases hle : s.frame.base + locals ≤ s.stack.size
    · have hcells := h.cells.clear h.frame.top
        (show t.frame.base + locals + b₁ = s.frame.base + locals + b₂ by omega) hle (by omega)
      rw [if_pos hle, if_pos (by omega)]
      refine .ok ⟨h.pc, h.depth, ⟨hbase, rfl, by dsimp only; omega⟩, h.callers, hcells, ?_⟩
      rw [size_clear, size_clear]
      exact hroom
    · rw [if_neg hle]
      exact .excused (hoverflow _)

omit hoverflow in
theorem enter_follows {limit₁ limit₂ : Nat} (hlimit : limit₁ ≤ limit₂)
    (hdepth : limit₁ = limit₂ ∨ excused (.callDepthExceeded limit₁)) (code : Array Word)
    (argc target : Word) :
    Follows excused origin b₁ b₂ (enter limit₁ code argc target address)
      (enter limit₂ code argc target address) := by
  intro s t hs h
  have hfloor := h.frame.floor
  have htop := h.frame.top
  have htemps : t.frame.top - t.frame.floor = s.frame.top - s.frame.floor := by omega
  rw [enter_apply, enter_apply, htemps, h.depth]
  cases argc.toIndex? with
  | none => exact .error
  | some n =>
    dsimp only
    split
    next => exact .error
    next hargs =>
      cases target.toIndex? with
      | none => exact .error
      | some entry =>
        dsimp only
        split
        next => exact .error
        next =>
          by_cases hdeep : limit₁ ≤ s.depth
          · rw [if_pos hdeep]
            rcases hdepth with rfl | hexcused
            · rw [if_pos hdeep]
              exact .error
            · exact .excused hexcused
          · by_cases hdeep' : limit₂ ≤ s.depth
            · exact absurd (Nat.le_trans hlimit hdeep') hdeep
            · have hfits := hs.fits.floor_le
              rw [if_neg hdeep, if_neg hdeep']
              exact .ok ⟨rfl, rfl, ⟨by dsimp only; omega, rfl, htop⟩,
                .cons ⟨h.frame, h.pc, rfl⟩ h.callers, h.cells, h.room⟩

theorem leave_follows (w : Word) : Follows excused origin b₁ b₂ (leave w) (leave w) := by
  intro s t hs h
  have hmirror := h.callers
  rw [leave_apply, leave_apply]
  cases hcallers : s.callers with
  | nil =>
    rw [hcallers, List.forall₂_nil_left_iff] at hmirror
    rw [hmirror]
    exact .ok h
  | cons c callers =>
    have hstacked := hs.stacked
    rw [hcallers] at hstacked hmirror
    obtain ⟨hfits, hargs, hbase, hbelow⟩ := hstacked.inner (List.cons_ne_nil _ _)
    obtain ⟨d, callers', hd, hrest, hcallers'⟩ := List.forall₂_cons_left_iff.mp hmirror
    have hbottom := Nat.le_trans hbelow.bottom_le c.frame.base_le_floor
    have hfloor := hfits.floor_le
    have htop := hd.frame.top
    have hargc := hd.argc
    -- The callee's frame starts at the arguments, so what stays of the caller's lies below its top.
    have hcallee := Nat.le_trans s.frame.base_le_floor hs.fits.floor_le
    rw [hcallers']
    refine (push_follows hoverflow w).bind (push_keeps w) (fun _ => follows_pure none) _ _
      (hs.caller hcallers (List.cons_ne_nil _ _)) ?_
    refine ⟨hd.pc, congrArg (· - 1) h.depth, ⟨hd.frame.base, hd.frame.locals, ?_⟩, hrest,
      h.cells.mono ?_, h.room⟩
    · dsimp only
      omega
    · dsimp only
      omega

theorem perform_follows {limit₁ limit₂ : Nat} (hlimit : limit₁ ≤ limit₂)
    (hdepth : limit₁ = limit₂ ∨ excused (.callDepthExceeded limit₁)) (code : Array Word)
    (op : Opcode) :
    Follows excused origin b₁ b₂ (perform limit₁ code address op)
      (perform limit₂ code address op) := by
  have hpop := @pop_follows excused origin b₁ b₂ address
  have hpush := @push_follows excused origin b₁ b₂ hoverflow
  have himm := @immediate_follows excused origin b₁ b₂ address code
  have hkpop := @pop_keeps origin b₁ [] address
  have hkpush := @push_keeps origin b₁ []
  have hkimm := @immediate_keeps origin b₁ [] address code
  have hnone := @follows_pure _ excused origin b₁ b₂ (none : Option Word)
  cases op with
  | unary op =>
    rw [perform_unary, perform_unary]
    exact hpop.bind hkpop fun a => (hpush _).bind (hkpush _) fun _ => hnone
  | binary op =>
    rw [perform_binary, perform_binary]
    refine hpop.bind hkpop fun b => hpop.bind hkpop fun a => ?_
    cases op.apply a b with
    | ok w => exact (hpush w).bind (hkpush w) fun _ => hnone
    | error e => exact follows_throw _
  | load => exact himm.bind hkimm fun slot => load_follows address hoverflow slot
  | store => exact himm.bind hkimm fun slot => store_follows address slot
  | int => exact himm.bind hkimm fun w => (hpush w).bind (hkpush w) fun _ => hnone
  | jumpIfFalse =>
    refine hpop.bind hkpop fun w => ?_
    split
    next => exact (follow_follows _ code).bind (follow_keeps _ code) fun _ => hnone
    next => exact himm.bind hkimm fun _ => hnone
  | jump => exact (follow_follows _ code).bind (follow_keeps _ code) fun _ => hnone
  | stackAdjust =>
    exact himm.bind hkimm fun count =>
      (adjust_follows _ hoverflow count).bind (adjust_keeps _ count) fun _ => hnone
  | call =>
    exact himm.bind hkimm fun argc => himm.bind hkimm fun target =>
      (enter_follows _ hlimit hdepth code argc target).bind
        (enter_keeps _ limit₁ code argc target) fun _ => hnone
  | ret => exact hpop.bind hkpop fun w => leave_follows hoverflow w
  | pop => exact hpop.bind hkpop fun _ => hnone

theorem step_follows {limit₁ limit₂ : Nat} (hlimit : limit₁ ≤ limit₂)
    (hdepth : limit₁ = limit₂ ∨ excused (.callDepthExceeded limit₁)) (code : Array Word) :
    Follows excused origin b₁ b₂ (step limit₁ code) (step limit₂ code) := by
  intro s t hs h
  rw [step_apply, step_apply, h.pc]
  cases code[s.pc]? with
  | none => exact .error
  | some word =>
    dsimp only
    cases Opcode.ofWord? word with
    | none => exact .error
    | some op =>
      exact perform_follows s.pc hoverflow hlimit hdepth code op _ _ (hs.goTo _) (h.goTo _)

end Actions

/-- Runs from mirrored states take equally many steps and come to the same, or the first ends in a
fault that is excused. -/
theorem runFrom_follows {excused : Fault → Prop} {origin : Array Word} {b₁ b₂ limit₁ limit₂ : Nat}
    {code : Array Word} (hstep : Follows excused origin b₁ b₂ (step limit₁ code) (step limit₂ code))
    (steps : Nat) {s t : State} (hs : s.Confined origin b₁ []) (h : s.Mirrors b₁ b₂ t) :
    (∃ f s', excused f ∧ runFrom limit₁ code steps s = some ⟨.error f, s'⟩) ∨
      (runFrom limit₁ code steps s).map Outcome.result =
        (runFrom limit₂ code steps t).map Outcome.result := by
  induction steps generalizing s t with
  | zero => exact Or.inr rfl
  | succ steps ih =>
    have halike := hstep s t hs h
    have hleft := step_keeps limit₁ code s hs
    rw [runFrom, runFrom, EStateM.run, EStateM.run]
    generalize step limit₁ code s = r, step limit₂ code t = r' at halike hleft
    cases halike with
    | @ok answer s' t' states =>
      cases answer with
      | none => exact ih hleft states
      | some w => exact Or.inr rfl
    | error => exact Or.inr rfl
    | excused hexcused => exact Or.inl ⟨_, _, hexcused, rfl⟩

end Exec

def Fault.bare : Fault → Fault
  | .stackOverflow _ => .stackOverflow 0
  | f => f

namespace Machine

theorem start_mirrors {m₁ m₂ : Machine} {base₁ base₂ : Nat} (entry : Nat)
    (hroom : m₁.stack.size + base₂ ≤ m₂.stack.size + base₁) :
    (m₁.start entry base₁).Mirrors base₁ base₂ (m₂.start entry base₂) := by
  refine ⟨rfl, rfl, ⟨Nat.add_comm _ _, rfl, Nat.add_comm _ _⟩, .nil, ?_, hroom⟩
  intro i j hi hlt
  exact absurd hlt (Nat.not_lt.mpr hi)

/-- With no more room the run overflows, or it comes to the same. -/
theorem runFrom_start {m₁ m₂ : Machine} {base₁ base₂ : Nat} (limit : Nat) (code : Array Word)
    (steps entry : Nat) (hbase : base₁ ≤ m₁.stack.size)
    (hroom : m₁.stack.size + base₂ ≤ m₂.stack.size + base₁) :
    (∃ n s, Exec.runFrom limit code steps (m₁.start entry base₁) =
      some ⟨.error (.stackOverflow n), s⟩) ∨
    (Exec.runFrom limit code steps (m₁.start entry base₁)).map Outcome.result =
      (Exec.runFrom limit code steps (m₂.start entry base₂)).map Outcome.result := by
  have hstep := @Exec.step_follows (fun f => ∃ n, f = .stackOverflow n) m₁.stack base₁ base₂
    (fun n => ⟨n, rfl⟩) limit limit (Nat.le_refl _) (Or.inl rfl) code
  have hfollows := Exec.runFrom_follows hstep steps (m₁.start_confined entry hbase)
    (start_mirrors entry hroom)
  refine hfollows.imp_left ?_
  rintro ⟨f, s, ⟨n, rfl⟩, hrun⟩
  exact ⟨n, s, hrun⟩

theorem execute_result {β : Type} {m : Machine} {base : Nat} (g : Except Fault Word → β)
    (steps : Nat) (code : Array Word) (entry : Nat) (h : base ≤ m.stack.size) :
    (m.execute steps code entry base).map (fun o => g o.1) =
      ((Exec.runFrom m.limits.callDepth code steps (m.start entry base)).map Outcome.result).map
        g := by
  rw [execute_of_le h, Option.map_map, Option.map_map]
  rfl

/-- The result of a run depends on the code and on how many cells and calls are left to it. It does
not depend on earlier runs, whatever they left in the stack, nor on where the frame starts. -/
theorem execute_depends_on_room (m₁ m₂ : Machine) (h₁ : m₁.Occurs) (h₂ : m₂.Occurs)
    (code : Array Word) (entry base₁ base₂ : Nat) (hbase₁ : base₁ ≤ m₁.limits.stackCapacity)
    (hbase₂ : base₂ ≤ m₂.limits.stackCapacity)
    (hroom : m₁.limits.stackCapacity - base₁ = m₂.limits.stackCapacity - base₂)
    (hdepth : m₁.limits.callDepth = m₂.limits.callDepth) (steps : Nat) :
    (m₁.execute steps code entry base₁).map (fun o => o.1.mapError Fault.bare) =
      (m₂.execute steps code entry base₂).map (fun o => o.1.mapError Fault.bare) := by
  rw [← h₁.size_stack] at hbase₁ hroom
  rw [← h₂.size_stack] at hbase₂ hroom
  rw [execute_result _ steps code entry hbase₁, execute_result _ steps code entry hbase₂, hdepth]
  have hfirst := @runFrom_start m₁ m₂ base₁ base₂ m₂.limits.callDepth code steps entry hbase₁
    (by omega)
  have hsecond := @runFrom_start m₂ m₁ base₂ base₁ m₂.limits.callDepth code steps entry hbase₂
    (by omega)
  -- Neither has less room than the other, so each run that overflows takes the other along.
  rcases hfirst with ⟨n₁, s₁, hrun₁⟩ | heq
  · rcases hsecond with ⟨n₂, s₂, hrun₂⟩ | heq
    · rw [hrun₁, hrun₂]
      rfl
    · rw [heq]
  · rw [heq]

/-- The second machine has had an overflow, which left words in its stack. -/
theorem execute_depends_on_room_negation :
    ∃ m₁ m₂ : Machine, m₁.Occurs ∧ m₂.Occurs ∧ m₁.stack = #[0, 0, 0, 0, 0, 0, 0, 0] ∧
      m₂.stack = #[0, 0, 0, 0, 0, 0, 7, 5, 0] ∧
      m₁.limits.stackCapacity - 2 = m₂.limits.stackCapacity - 3 ∧
      m₁.limits.callDepth = m₂.limits.callDepth ∧
      (m₁.execute 20 Sample.negatingCode 0 2).map (fun o => o.1.mapError Fault.bare) =
        (m₂.execute 20 Sample.negatingCode 0 3).map (fun o => o.1.mapError Fault.bare) := by
  have h₁ : (new ⟨8, 1024⟩).Occurs := .new _
  have h₂ : Machine.Occurs ⟨⟨9, 5000⟩, #[0, 0, 0, 0, 0, 0, 7, 5, 0], 0⟩ :=
    @Occurs.ran _ _ 20 0 6 Sample.negatingCode (.error (.stackOverflow 9)) (.new ⟨9, 5000⟩) rfl
  exact ⟨_, _, h₁, h₂, rfl, rfl, rfl, rfl,
    execute_depends_on_room _ _ h₁ h₂ Sample.negatingCode 0 2 3 (by decide) (by decide) rfl rfl 20⟩

/-- Limits only ever add faults. What a run comes to under narrow limits without hitting one of
them, it comes to under wider limits as well, in as many steps. -/
theorem execute_under_wider_limits (narrow wide : Limits)
    (hstack : narrow.stackCapacity ≤ wide.stackCapacity)
    (hdepth : narrow.callDepth ≤ wide.callDepth) (code : Array Word) (entry base steps : Nat)
    (r : Except Fault Word) (m : Machine)
    (h : (new narrow).execute steps code entry base = some (r, m))
    (hroom : ∀ n, r ≠ .error (.stackOverflow n))
    (hcalls : ∀ n, r ≠ .error (.callDepthExceeded n)) :
    ∃ m', (new wide).execute steps code entry base = some (r, m') := by
  rw [← size_stack_new narrow, ← size_stack_new wide] at hstack
  by_cases hbase : base ≤ (new narrow).stack.size
  · have hbase' := Nat.le_trans hbase hstack
    rw [execute_of_le hbase] at h
    obtain ⟨o, hrun, heq⟩ := Option.map_eq_some_iff.mp h
    cases heq
    have hstep := @Exec.step_follows
      (fun f => (∃ n, f = .stackOverflow n) ∨ ∃ n, f = .callDepthExceeded n) (new narrow).stack
      base base (fun n => Or.inl ⟨n, rfl⟩) narrow.callDepth wide.callDepth hdepth
      (Or.inr (Or.inr ⟨_, rfl⟩)) code
    have hfollows := Exec.runFrom_follows hstep steps ((new narrow).start_confined entry hbase)
      (@start_mirrors (new narrow) (new wide) base base entry (by omega))
    rw [execute_of_le hbase']
    rcases hfollows with ⟨f, s, hlimit, hfault⟩ | hsame
    · -- A run that ends in a fault of the limits is the one that was excluded.
      cases hrun.symm.trans hfault
      rcases hlimit with ⟨n, rfl⟩ | ⟨n, rfl⟩
      · exact absurd rfl (hroom n)
      · exact absurd rfl (hcalls n)
    · have hwide : (Exec.runFrom wide.callDepth code steps ((new wide).start entry base)).map
          Outcome.result = some o.result := hsame.symm.trans (congrArg _ hrun)
      obtain ⟨o', hrun', hresult⟩ := Option.map_eq_some_iff.mp hwide
      exact ⟨after wide o'.state, Option.map_eq_some_iff.mpr ⟨o', hrun', by rw [hresult]; rfl⟩⟩
  · rw [execute, if_pos (Nat.lt_of_not_le hbase)] at h
    cases h
    exact absurd rfl (hroom _)

/-- The narrow stack is filled to its last cell, and there is one call. -/
theorem execute_under_wider_limits_negation :
    ∃ m, (⟨5, 1⟩ : Limits).stackCapacity ≤ (⟨9, 5000⟩ : Limits).stackCapacity ∧
      (⟨5, 1⟩ : Limits).callDepth ≤ (⟨9, 5000⟩ : Limits).callDepth ∧
      (new ⟨5, 1⟩).execute 20 Sample.negatingCode 0 1 = some (.ok (-5), m) ∧
      ∃ m', (new ⟨9, 5000⟩).execute 20 Sample.negatingCode 0 1 = some (.ok (-5), m') := by
  have hdepth : (⟨5, 1⟩ : Limits).callDepth ≤ (⟨9, 5000⟩ : Limits).callDepth := by decide
  exact ⟨_, by decide, hdepth, rfl,
    execute_under_wider_limits ⟨5, 1⟩ ⟨9, 5000⟩ (by decide) hdepth Sample.negatingCode 0 1 20
      (.ok (-5)) _ rfl (by simp) (by simp)⟩

end Machine

end Wordcode
