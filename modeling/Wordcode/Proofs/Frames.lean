import Wordcode.Proofs.Configuration

/-!
Frames in the stack. They lie one above the other, and an invocation writes no cell below its own.
Every action keeps this, so every step does, and every run.
-/

namespace Wordcode

structure Frame.Fits (f : Frame) (size : Nat) : Prop where
  floor_le : f.floor ≤ f.top
  top_le : f.top ≤ size

theorem Frame.base_le_floor (f : Frame) : f.base ≤ f.floor := Nat.le_add_right f.base f.locals

/-- Calls lead from the invocation that has `outer` as callers and a frame from `bottom` on to the
one that has `callers` and a frame from the given cell on. -/
inductive Stacked (size bottom : Nat) (outer : List Caller) : Nat → List Caller → Prop where
  | bottom : Stacked size bottom outer bottom outer
  | call {c : Caller} {callers : List Caller} (fits : c.frame.Fits size)
      (args : c.argc ≤ c.frame.top - c.frame.floor)
      (below : Stacked size bottom outer c.frame.base callers) :
      Stacked size bottom outer (c.frame.top - c.argc) (c :: callers)

namespace Stacked

variable {size bottom base : Nat} {outer callers : List Caller} {c : Caller}

theorem bottom_le (h : Stacked size bottom outer base callers) : bottom ≤ base := by
  induction h with
  | bottom => exact Nat.le_refl _
  | @call c _ fits args _ ih =>
    have hfits := fits.floor_le
    have hbase := c.frame.base_le_floor
    omega

theorem suffix (h : Stacked size bottom outer base callers) : outer <:+ callers := by
  induction h with
  | bottom => exact List.suffix_refl _
  | call _ _ _ ih => exact ih.trans (List.suffix_cons _ _)

theorem fits_of_mem (h : Stacked size bottom [] base callers) (hc : c ∈ callers) :
    c.frame.Fits size := by
  induction h with
  | bottom => cases hc
  | call fits _ _ ih =>
    rcases List.mem_cons.mp hc with rfl | hc
    · exact fits
    · exact ih hc

/-- What the innermost caller looks like, unless it is an outer one. -/
theorem inner (h : Stacked size bottom outer base (c :: callers)) (hne : c :: callers ≠ outer) :
    c.frame.Fits size ∧ c.argc ≤ c.frame.top - c.frame.floor ∧ base = c.frame.top - c.argc ∧
      Stacked size bottom outer c.frame.base callers := by
  cases h with
  | bottom => exact absurd rfl hne
  | call fits args below => exact ⟨fits, args, rfl, below⟩

end Stacked

structure Untouched (bottom : Nat) (before after : Array Word) : Prop where
  size : after.size = before.size
  cells : ∀ i < bottom, after[i]? = before[i]?

theorem Untouched.refl (bottom : Nat) (stack : Array Word) : Untouched bottom stack stack :=
  ⟨rfl, fun _ _ => rfl⟩

theorem Untouched.trans {bottom : Nat} {a b c : Array Word} (h : Untouched bottom a b)
    (h' : Untouched bottom b c) : Untouched bottom a c :=
  ⟨h'.size.trans h.size, fun i hi => (h'.cells i hi).trans (h.cells i hi)⟩

theorem Untouched.mono {bottom bottom' : Nat} {a b : Array Word} (h : Untouched bottom a b)
    (hle : bottom' ≤ bottom) : Untouched bottom' a b :=
  ⟨h.size, fun i hi => h.cells i (Nat.lt_of_lt_of_le hi hle)⟩

theorem Untouched.set {bottom i : Nat} (stack : Array Word) (w : Word) (hi : bottom ≤ i) :
    Untouched bottom stack (stack.setIfInBounds i w) :=
  ⟨Array.size_setIfInBounds, fun _ hj => Array.getElem?_setIfInBounds_ne (by omega)⟩

/-- The running invocation was begun by the one that has `outer` as callers and a frame from
`bottom` on, or is that one. Its frames fit, and it touched no cell of `origin` below `bottom`. -/
structure State.Confined (origin : Array Word) (bottom : Nat) (outer : List Caller) (s : State) :
    Prop where
  fits : s.frame.Fits s.stack.size
  stacked : Stacked s.stack.size bottom outer s.frame.base s.callers
  depth : s.depth = s.callers.length
  untouched : Untouched bottom origin s.stack

namespace Exec

def Leaves {α : Type} (P : State → Prop) : EStateM.Result Fault State α → Prop
  | .ok _ s => P s
  | .error _ s => P s

def Keeps {α : Type} (P : State → Prop) (x : Exec α) : Prop := ∀ s, P s → Leaves P (x s)

section Keeps

variable {α β : Type} {P : State → Prop} {x : Exec α} {k : α → Exec β}

theorem keeps_pure (a : α) : Keeps P (pure a) := fun _ hs => hs

theorem keeps_throw (f : Fault) : Keeps P (throw f : Exec α) := fun _ hs => hs

theorem Leaves.bind {s : State} (hx : Leaves P (x s)) (hk : ∀ a, Keeps P (k a)) :
    Leaves P ((x >>= k) s) := by
  cases hrun : x s with
  | ok a s' =>
    rw [bind_ok hrun]
    rw [hrun] at hx
    exact hk a s' hx
  | error f s' =>
    rw [bind_error hrun]
    rw [hrun] at hx
    exact hx

theorem Keeps.bind (hx : Keeps P x) (hk : ∀ a, Keeps P (k a)) : Keeps P (x >>= k) :=
  fun s hs => (hx s hs).bind hk

end Keeps

theorem clear_of_le (stack : Array Word) {start stop : Nat} (h : stop ≤ start) :
    clear stack start stop = stack := by
  rw [clear, Nat.sub_eq_zero_of_le h]
  rfl

theorem getElem?_clear (stack : Array Word) (start stop i : Nat) :
    (clear stack start stop)[i]? =
      if start ≤ i ∧ i < stop ∧ i < stack.size then some 0 else stack[i]? := by
  by_cases hle : start ≤ stop
  · obtain ⟨n, rfl⟩ := Nat.le.dest hle
    clear hle
    induction n with
    | zero =>
      have hout : ¬ (start ≤ i ∧ i < start + 0 ∧ i < stack.size) := by omega
      rw [if_neg hout, clear_of_le stack (Nat.le_of_eq (Nat.add_zero start))]
    | succ n ih =>
      rw [clear_succ, Array.getElem?_setIfInBounds, ih, size_clear]
      grind
  · have hout : ¬ (start ≤ i ∧ i < stop ∧ i < stack.size) := by omega
    rw [if_neg hout, clear_of_le stack (Nat.le_of_not_le hle)]

end Exec

namespace State.Confined

variable {origin : Array Word} {bottom : Nat} {outer : List Caller} {s : State}

theorem bottom_le_base (h : s.Confined origin bottom outer) : bottom ≤ s.frame.base :=
  h.stacked.bottom_le

theorem goTo (h : s.Confined origin bottom outer) (pc : Nat) :
    { s with pc }.Confined origin bottom outer := ⟨h.fits, h.stacked, h.depth, h.untouched⟩

/-- The same invocation on another stack and with other bounds for its frame. -/
theorem resize (h : s.Confined origin bottom outer) {stack : Array Word} {locals top : Nat}
    (hstack : Untouched bottom s.stack stack) (hfloor : s.frame.base + locals ≤ top)
    (htop : top ≤ s.stack.size) :
    { s with stack, frame := { s.frame with locals, top } }.Confined origin bottom outer := by
  refine ⟨⟨hfloor, ?_⟩, ?_, h.depth, h.untouched.trans hstack⟩
  · rw [hstack.size]
    exact htop
  · rw [hstack.size]
    exact h.stacked

/-- The running invocation by itself. -/
theorem self (h : s.Confined origin bottom outer) : s.Confined s.stack s.frame.base s.callers :=
  ⟨h.fits, .bottom, h.depth, .refl _ _⟩

/-- The caller's frame fits again once the arguments are taken off. -/
theorem caller (h : s.Confined origin bottom outer) {c : Caller} {callers : List Caller}
    (hcallers : s.callers = c :: callers) (hinner : c :: callers ≠ outer) :
    State.Confined origin bottom outer { s with
      frame := { c.frame with top := c.frame.top - c.argc }
      pc := c.pc
      depth := s.depth - 1
      callers } := by
  have hstacked := h.stacked
  rw [hcallers] at hstacked
  obtain ⟨hfits, hargs, -, hbelow⟩ := hstacked.inner hinner
  have hfloor := hfits.floor_le
  refine ⟨⟨?_, Nat.le_trans (Nat.sub_le _ _) hfits.top_le⟩, hbelow, ?_, h.untouched⟩
  · change c.frame.floor ≤ c.frame.top - c.argc
    omega
  · rw [h.depth, hcallers]
    rfl

end State.Confined

namespace Exec

def loadSlot (slot : Word) (address : Nat) : Exec (Option Word) := do
  let i ← localIndex slot address
  let s ← get
  push (s.stack.getD i 0)
  return none

def storeSlot (slot : Word) (address : Nat) : Exec (Option Word) := do
  let i ← localIndex slot address
  let w ← pop address
  modify fun s => { s with stack := s.stack.setIfInBounds i w }
  return none

section Opcodes

variable {code : Array Word} {s : State} (limit : Nat)

def opcodeAt (code : Array Word) (address : Nat) : Option Opcode :=
  (code[address]?).bind Opcode.ofWord?

theorem step_of_opcode {op : Opcode} (h : opcodeAt code s.pc = some op) :
    step limit code s = perform limit code s.pc op { s with pc := s.pc + 1 } := by
  obtain ⟨word, hword, hop⟩ := Option.bind_eq_some_iff.mp h
  simp only [step_apply, hword, hop]

theorem step_of_no_opcode (h : opcodeAt code s.pc = none) :
    ∃ f pc, step limit code s = .error f { s with pc } := by
  rw [step_apply]
  cases hword : code[s.pc]? with
  | none => exact ⟨_, s.pc, rfl⟩
  | some word =>
    have hop : Opcode.ofWord? word = none := by
      rw [opcodeAt, hword] at h
      exact h
    simp only [hop]
    exact ⟨_, _, rfl⟩

/-- A return pops its value and hands it over. -/
theorem step_ret (h : opcodeAt code s.pc = some .ret) :
    step limit code s =
      if s.frame.floor < s.frame.top then
        leave (s.stack.getD (s.frame.top - 1) 0)
          { s with pc := s.pc + 1, frame := { s.frame with top := s.frame.top - 1 } }
      else .error (.stackUnderflow s.pc) { s with pc := s.pc + 1 } := by
  rw [step_of_opcode limit h]
  have hpop := pop_apply { s with pc := s.pc + 1 } s.pc
  by_cases hlt : s.frame.floor < s.frame.top
  · rw [if_pos hlt] at hpop ⊢
    exact bind_ok hpop
  · rw [if_neg hlt] at hpop ⊢
    exact bind_error hpop

end Opcodes

section Actions

variable {origin : Array Word} {bottom : Nat} {outer : List Caller} (address : Nat)

theorem pop_keeps : Keeps (State.Confined origin bottom outer) (pop address) := by
  intro s hs
  rw [pop_apply]
  split
  next hlt =>
    have htop := hs.fits.top_le
    have hfloor : s.frame.base + s.frame.locals ≤ s.frame.top - 1 := Nat.le_sub_one_of_lt hlt
    exact hs.resize (.refl _ _) hfloor (by omega)
  next => exact hs

theorem push_keeps (w : Word) : Keeps (State.Confined origin bottom outer) (push w) := by
  intro s hs
  rw [push_apply]
  split
  next hlt =>
    have hbottom := hs.bottom_le_base
    have hbase := s.frame.base_le_floor
    have hfloor := hs.fits.floor_le
    exact hs.resize (.set _ w (by omega)) (Nat.le_succ_of_le hfloor) hlt
  next => exact hs

theorem localIndex_keeps (slot : Word) :
    Keeps (State.Confined origin bottom outer) (localIndex slot address) := by
  intro s hs
  rw [localIndex_apply]
  cases slot.toIndex? with
  | none => exact hs
  | some i =>
    dsimp only
    split <;> exact hs

theorem immediate_keeps (code : Array Word) :
    Keeps (State.Confined origin bottom outer) (immediate code address) := by
  intro s hs
  rw [immediate_apply]
  cases code[s.pc]? with
  | none => exact hs
  | some w => exact hs.goTo _

theorem follow_keeps (code : Array Word) :
    Keeps (State.Confined origin bottom outer) (follow code address) := by
  intro s hs
  rw [follow_apply]
  cases code[s.pc]? with
  | none => exact hs
  | some offset =>
    dsimp only
    cases Word.add? (.ofNat s.pc) offset with
    | none => exact hs
    | some target =>
      dsimp only
      cases target.toIndex? with
      | none => exact hs
      | some i =>
        dsimp only
        split
        next => exact hs.goTo i
        next => exact hs

/-- A slot is a cell of the frame, below its floor. -/
theorem localIndex_cases (slot : Word) (s : State) :
    (∃ i, s.frame.base ≤ i ∧ i < s.frame.floor ∧ localIndex slot address s = .ok i s) ∨
      localIndex slot address s = .error (.invalidSlot slot address) s := by
  rw [localIndex_apply]
  cases slot.toIndex? with
  | none => exact Or.inr rfl
  | some i =>
    dsimp only
    split
    next hlt => exact Or.inl ⟨_, Nat.le_add_right _ i, Nat.add_lt_add_left hlt _, rfl⟩
    next => exact Or.inr rfl

theorem localIndex_eq_ok {address i : Nat} {slot : Word} {s t : State}
    (h : localIndex slot address s = .ok i t) :
    s = t ∧ s.frame.base ≤ i ∧ i < s.frame.floor := by
  rcases localIndex_cases address slot s with ⟨j, hbase, hfloor, hok⟩ | herror
  · rw [hok] at h
    cases h
    exact ⟨rfl, hbase, hfloor⟩
  · rw [herror] at h
    cases h

theorem load_keeps (slot : Word) :
    Keeps (State.Confined origin bottom outer) (loadSlot slot address) := by
  refine (localIndex_keeps address slot).bind fun i s hs => ?_
  rw [get_bind]
  exact (push_keeps _).bind (fun _ => keeps_pure none) s hs

/-- The slot is found before the word is popped, and popping leaves the frame's base as it is. -/
theorem store_keeps (slot : Word) :
    Keeps (State.Confined origin bottom outer) (storeSlot slot address) := by
  intro s hs
  unfold storeSlot
  rcases localIndex_cases address slot s with ⟨i, hbase, -, hindex⟩ | hindex
  · rw [bind_ok hindex]
    have hbottom : bottom ≤ i := Nat.le_trans hs.bottom_le_base hbase
    exact (pop_keeps address s hs).bind fun w t ht =>
      ht.resize (.set _ w hbottom) ht.fits.floor_le ht.fits.top_le
  · rw [bind_error hindex]
    exact hs

theorem adjust_keeps (count : Word) :
    Keeps (State.Confined origin bottom outer) (adjust count address) := by
  intro s hs
  rw [adjust_apply]
  cases count.toIndex? with
  | none => exact hs
  | some locals =>
    dsimp only
    split
    next hle =>
      have hbottom := hs.bottom_le_base
      have hbase := s.frame.base_le_floor
      have hfloor := hs.fits.floor_le
      refine hs.resize ⟨size_clear .., ?_⟩ (Nat.le_refl _) hle
      intro i hi
      rw [getElem?_clear, if_neg (by omega)]
    next => exact hs

theorem enter_keeps (limit : Nat) (code : Array Word) (argc target : Word) :
    Keeps (State.Confined origin bottom outer) (enter limit code argc target address) := by
  intro s hs
  rw [enter_apply]
  cases argc.toIndex? with
  | none => exact hs
  | some n =>
    dsimp only
    split
    next => exact hs
    next hargs =>
      cases target.toIndex? with
      | none => exact hs
      | some entry =>
        dsimp only
        split
        next => exact hs
        next =>
          split
          next => exact hs
          next =>
            refine ⟨⟨Nat.sub_le _ n, hs.fits.top_le⟩, ?_, ?_, hs.untouched⟩
            · exact @Stacked.call _ _ _ { frame := s.frame, pc := s.pc, argc := n } _ hs.fits
                (Nat.le_of_not_lt hargs) hs.stacked
            · rw [hs.depth, List.length_cons]

theorem leave_confined {s : State} (w : Word) (hs : s.Confined origin bottom outer)
    (hne : s.callers = outer → outer = []) :
    Leaves (State.Confined origin bottom outer) (leave w s) := by
  rw [leave_apply]
  cases hcallers : s.callers with
  | nil => exact hs
  | cons c callers =>
    have hinner : c :: callers ≠ outer := by
      intro heq
      have hnil := hne (hcallers.trans heq)
      rw [hnil] at heq
      cases heq
    exact (push_keeps w).bind (fun _ => keeps_pure none) _ (hs.caller hcallers hinner)

theorem perform_keeps (limit : Nat) (code : Array Word) {op : Opcode} (hop : op ≠ .ret) :
    Keeps (State.Confined origin bottom outer) (perform limit code address op) := by
  cases op with
  | unary op =>
    rw [perform_unary]
    exact (pop_keeps _).bind fun a => (push_keeps _).bind fun _ => keeps_pure none
  | binary op =>
    rw [perform_binary]
    refine (pop_keeps _).bind fun b => (pop_keeps _).bind fun a => ?_
    cases op.apply a b with
    | ok w => exact (push_keeps w).bind fun _ => keeps_pure none
    | error e => exact keeps_throw _
  | load => exact (immediate_keeps _ code).bind fun slot => load_keeps _ slot
  | store => exact (immediate_keeps _ code).bind fun slot => store_keeps _ slot
  | int => exact (immediate_keeps _ code).bind fun w => (push_keeps w).bind fun _ => keeps_pure none
  | jumpIfFalse =>
    refine (pop_keeps _).bind fun w => ?_
    split
    next => exact (follow_keeps _ code).bind fun _ => keeps_pure none
    next => exact (immediate_keeps _ code).bind fun _ => keeps_pure none
  | jump => exact (follow_keeps _ code).bind fun _ => keeps_pure none
  | stackAdjust =>
    exact (immediate_keeps _ code).bind fun count =>
      (adjust_keeps _ count).bind fun _ => keeps_pure none
  | call =>
    exact (immediate_keeps _ code).bind fun argc => (immediate_keeps _ code).bind fun target =>
      (enter_keeps _ limit code argc target).bind fun _ => keeps_pure none
  | ret => exact absurd rfl hop
  | pop => exact (pop_keeps _).bind fun _ => keeps_pure none

/-- A step keeps the state confined, unless it returns from the outermost invocation in view. -/
theorem step_confined (limit : Nat) (code : Array Word) {s : State}
    (hs : s.Confined origin bottom outer)
    (hret : opcodeAt code s.pc = some .ret → s.callers = outer → outer = []) :
    Leaves (State.Confined origin bottom outer) (step limit code s) := by
  have hnext := hs.goTo (s.pc + 1)
  cases hop : opcodeAt code s.pc with
  | none =>
    obtain ⟨f, pc, hstep⟩ := step_of_no_opcode limit hop
    rw [hstep]
    exact hs.goTo pc
  | some op =>
    by_cases h : op = .ret
    · subst h
      have hpop := pop_keeps s.pc _ hnext
      rw [step_ret limit hop]
      split
      next hlt =>
        rw [pop_apply, if_pos hlt] at hpop
        exact leave_confined _ hpop (hret hop)
      next => exact hnext
    · rw [step_of_opcode limit hop]
      exact perform_keeps s.pc limit code h _ hnext

theorem step_keeps (limit : Nat) (code : Array Word) :
    Keeps (State.Confined origin bottom []) (step limit code) :=
  fun _ hs => step_confined limit code hs fun _ _ => rfl

end Actions

section Runs

variable {limit : Nat} {code : Array Word} {s t : State} {P : State → Prop}

inductive Visits (limit : Nat) (code : Array Word) (s : State) : State → Prop where
  | here : Visits limit code s s
  | next {t t' : State} (before : Visits limit code s t) (move : step limit code t = .ok none t') :
      Visits limit code s t'

theorem Visits.keeps (h : Visits limit code s t) (hk : Keeps P (step limit code)) (hs : P s) :
    P t := by
  induction h with
  | here => exact hs
  | @next t _ _ move ih =>
    have hleft := hk t ih
    rw [move] at hleft
    exact hleft

theorem runFrom_keeps {steps : Nat} {o : Outcome} (hk : Keeps P (step limit code)) (hs : P s)
    (h : runFrom limit code steps s = some o) : P o.state := by
  induction steps generalizing s with
  | zero => cases h
  | succ steps ih =>
    have hleft := hk s hs
    rw [runFrom, EStateM.run] at h
    cases hstep : step limit code s with
    | error f s' =>
      rw [hstep] at h hleft
      cases h
      exact hleft
    | ok answer s' =>
      rw [hstep] at h hleft
      cases answer with
      | none => exact ih hleft h
      | some w =>
        cases h
        exact hleft

end Runs

end Exec

namespace Machine

variable {m m' : Machine} {steps entry base : Nat} {code : Array Word} {r : Except Fault Word}

theorem start_confined (m : Machine) (entry : Nat) (h : base ≤ m.stack.size) :
    (m.start entry base).Confined m.stack base [] :=
  ⟨⟨Nat.le_refl _, h⟩, .bottom, rfl, .refl _ _⟩

theorem execute_of_le (h : base ≤ m.stack.size) :
    m.execute steps code entry base =
      (Exec.runFrom m.limits.callDepth code steps (m.start entry base)).map fun o =>
        (o.result, after m.limits o.state) := by
  rw [execute, if_neg (Nat.not_lt.mpr h)]

/-- A run keeps the limits, the size of the stack and the cells below its frame. -/
theorem execute_untouched (h : m.execute steps code entry base = some (r, m')) :
    m'.limits = m.limits ∧ Untouched base m.stack m'.stack := by
  by_cases hbase : base ≤ m.stack.size
  · rw [execute_of_le hbase] at h
    obtain ⟨o, hrun, heq⟩ := Option.map_eq_some_iff.mp h
    cases heq
    exact ⟨rfl, (Exec.runFrom_keeps (Exec.step_keeps _ _) (m.start_confined entry hbase)
      hrun).untouched⟩
  · rw [execute, if_pos (Nat.lt_of_not_le hbase)] at h
    cases h
    exact ⟨rfl, .refl _ _⟩

/-- Machines as they come about: new ones, and those that a finished run leaves. -/
inductive Occurs : Machine → Prop where
  | new (limits : Limits) : Occurs (new limits)
  | ran {m m' : Machine} {steps entry base : Nat} {code : Array Word} {r : Except Fault Word}
      (before : Occurs m) (run : m.execute steps code entry base = some (r, m')) : Occurs m'

theorem Occurs.size_stack (h : m.Occurs) : m.stack.size = m.limits.stackCapacity := by
  induction h with
  | new limits => exact size_stack_new limits
  | ran _ run ih =>
    obtain ⟨hlimits, hstack⟩ := execute_untouched run
    rw [hstack.size, hlimits, ih]

end Machine

def Sample.negatingCode : Array Word :=
  #[Opcode.int.word, 7, Opcode.int.word, 5, Opcode.call.word, 1, 8, Opcode.ret.word,
    Opcode.stackAdjust.word, 2, Opcode.load.word, 0, (Opcode.unary .minus).word, Opcode.ret.word]

end Wordcode
