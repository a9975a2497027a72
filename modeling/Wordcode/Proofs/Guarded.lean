import Wordcode.Proofs.Frames
import Wordcode.Proofs.Instructions

/-!
The machine on a host with 64-bit indices, which stops for good when a cell or an index does not
exist. Main statement: this never happens, and the host does what the machine does.
-/

namespace Wordcode

theorem Word.toIndex?_lt {w : Word} {n : Nat} (h : w.toIndex? = some n) : n < addressSpace := by
  have hlt := Int64.toInt_lt w
  unfold Word.toIndex? at h
  split at h
  next =>
    cases h
    unfold addressSpace
    omega
  next => cases h

inductive Halt where
  | fault (f : Fault)
  | noCell (index : Nat)
  | negative (a b : Nat)
  | tooLarge (a b : Nat)
deriving DecidableEq

abbrev Guarded := EStateM Halt State

namespace Guarded

def indexSpace : Nat := 18446744073709551616

def lift {α : Type} (x : Exec α) : Guarded α := fun s =>
  match x s with
  | .ok a t => .ok a t
  | .error f t => .error (.fault f) t

def raise {α : Type} (f : Fault) : Guarded α := throw (.fault f)

def add (a b : Nat) : Guarded Nat :=
  if a + b < indexSpace then return a + b else throw (.tooLarge a b)

def sub (a b : Nat) : Guarded Nat := if b ≤ a then return a - b else throw (.negative a b)

def read (i : Nat) : Guarded Word := do
  let s ← get
  match s.stack[i]? with
  | some w => return w
  | none => throw (.noCell i)

def write (i : Nat) (w : Word) : Guarded Unit := do
  let s ← get
  if i < s.stack.size then set { s with stack := s.stack.setIfInBounds i w }
  else throw (.noCell i)

def fill (start stop : Nat) : Guarded Unit := do
  let s ← get
  if stop < start then throw (.negative stop start)
  else if stop ≤ s.stack.size then set { s with stack := Exec.clear s.stack start stop }
  else throw (.noCell stop)

def setTop (top : Nat) : Guarded Unit := modify fun s => { s with frame := { s.frame with top } }

/-! The actions of the machine, with every index computed and used by the host. -/

def pop (address : Nat) : Guarded Word := do
  let s ← get
  let floor ← add s.frame.base s.frame.locals
  if s.frame.top ≤ floor then raise (.stackUnderflow address)
  else
    let top ← sub s.frame.top 1
    setTop top
    read top

def push (w : Word) : Guarded Unit := do
  let s ← get
  if s.frame.top < s.stack.size then
    write s.frame.top w
    let top ← add s.frame.top 1
    setTop top
  else raise (.stackOverflow s.capacity)

def localIndex (slot : Word) (address : Nat) : Guarded Nat := do
  let s ← get
  match slot.toIndex? with
  | some i =>
    if i < s.frame.locals then add s.frame.base i else raise (.invalidSlot slot address)
  | none => raise (.invalidSlot slot address)

def loadSlot (slot : Word) (address : Nat) : Guarded (Option Word) := do
  let i ← localIndex slot address
  let w ← read i
  push w
  return none

def storeSlot (slot : Word) (address : Nat) : Guarded (Option Word) := do
  let i ← localIndex slot address
  let w ← pop address
  write i w
  return none

def advance : Guarded Unit := do
  let s ← get
  let pc ← add s.pc 1
  set { s with pc }

def immediate (code : Array Word) (address : Nat) : Guarded Word := do
  let s ← get
  match code[s.pc]? with
  | none => raise (.truncated address)
  | some w =>
    advance
    return w

/-- Where a jump leads is computed in words; a sum that is no word is a fault of the machine. -/
def follow (code : Array Word) (address : Nat) : Guarded Unit := lift (Exec.follow code address)

def adjust (count : Word) (address : Nat) : Guarded Unit := do
  let s ← get
  match count.toIndex? with
  | none => raise (.invalidStackAdjust count address)
  | some locals =>
    let top ← add s.frame.base locals
    if top ≤ s.stack.size then
      if s.frame.top < top then fill s.frame.top top
      modify fun s => { s with frame := { s.frame with locals, top } }
    else raise (.stackOverflow s.stack.size)

def enter (limit : Nat) (code : Array Word) (argc target : Word) (address : Nat) :
    Guarded Unit := do
  let s ← get
  match argc.toIndex? with
  | none => raise (.stackUnderflow address)
  | some n =>
    let floor ← add s.frame.base s.frame.locals
    let temps ← sub s.frame.top floor
    if temps < n then raise (.stackUnderflow address)
    else
      match target.toIndex? with
      | none => raise (.invalidJumpTarget target address)
      | some entry =>
        if code.size ≤ entry then raise (.invalidJumpTarget target address)
        else if limit ≤ s.depth then raise (.callDepthExceeded limit)
        else
          let depth ← add s.depth 1
          let base ← sub s.frame.top n
          set { s with
            frame := { base, locals := 0, top := s.frame.top }
            pc := entry
            depth
            callers := { frame := s.frame, pc := s.pc, argc := n } :: s.callers }

def leave (w : Word) : Guarded (Option Word) := do
  let s ← get
  match s.callers with
  | [] => return some w
  | c :: callers =>
    let depth ← sub s.depth 1
    let top ← sub c.frame.top c.argc
    set { s with frame := { c.frame with top }, pc := c.pc, depth, callers }
    push w
    return none

def opcode (word : Word) (address : Nat) : Guarded Opcode := lift (Exec.opcode word address)

def performUnary (word : Word) (address : Nat) (op : Opcode) : Guarded (Option Word) := do
  let a ← pop address
  match op.applyUnary? a with
  | some w =>
    push w
    return none
  | none => raise (.invalidOpcode word address)

def performBinary (address : Nat) (op : Opcode) : Guarded (Option Word) := do
  let b ← pop address
  let a ← pop address
  match op.applyBinary a b address with
  | .ok w =>
    push w
    return none
  | .error f => raise f

def performPlain (limit : Nat) (code : Array Word) (word : Word) (address : Nat) :
    Opcode → Guarded (Option Word)
  | .load => do
    let slot ← immediate code address
    loadSlot slot address
  | .store => do
    let slot ← immediate code address
    storeSlot slot address
  | .int => do
    let w ← immediate code address
    push w
    return none
  | .jumpIfFalse => do
    let w ← pop address
    if w = 0 then
      follow code address
      return none
    else
      let _ ← immediate code address
      return none
  | .jump => do
    follow code address
    return none
  | .stackAdjust => do
    let count ← immediate code address
    adjust count address
    return none
  | .call => do
    let argc ← immediate code address
    let target ← immediate code address
    enter limit code argc target address
    return none
  | .ret => do
    let w ← pop address
    leave w
  | .pop => do
    let _ ← pop address
    return none
  | _ => raise (.invalidOpcode word address)

def step (limit : Nat) (code : Array Word) : Guarded (Option Word) := do
  let s ← get
  let address := s.pc
  match code[address]? with
  | none => raise (.fellOffEnd address)
  | some word =>
    advance
    if word &&& Opcode.unaryFlag != 0 then
      let op ← opcode word address
      performUnary word address op
    else if word &&& Opcode.binaryFlag != 0 then
      let op ← opcode word address
      performBinary address op
    else
      let op ← opcode word address
      performPlain limit code word address op

def runFrom (limit : Nat) (code : Array Word) : Nat → State → Option (Except Halt Word × State)
  | 0, _ => none
  | steps + 1, s =>
    match (step limit code).run s with
    | .ok (some w) s => some (.ok w, s)
    | .error h s => some (.error h, s)
    | .ok none s => runFrom limit code steps s

def execute (m : Machine) (steps : Nat) (code : Array Word) (entry base : Nat) :
    Option (Except Halt Word × Machine) :=
  if m.stack.size < base then some (.error (.fault (.stackOverflow m.stack.size)), m)
  else
    (runFrom m.limits.callDepth code steps (m.start entry base)).map fun (r, s) =>
      (r, Machine.after m.limits s)

section Lift

variable {α β : Type} {x : Exec α} {s t : State}

theorem lift_ok {a : α} (h : x s = .ok a t) : lift x s = .ok a t := by
  rw [lift, h]

theorem lift_error {f : Fault} (h : x s = .error f t) : lift x s = .error (.fault f) t := by
  rw [lift, h]

def Agrees (P : State → Prop) (x : Exec α) (y : Guarded α) : Prop := ∀ s, P s → y s = lift x s

theorem agrees_pure {P : State → Prop} (a : α) : Agrees P (pure a) (pure a) := fun _ _ => rfl

theorem agrees_raise {P : State → Prop} (f : Fault) : Agrees P (throw f : Exec α) (raise f) :=
  fun _ _ => rfl

theorem lift_bind {y : Guarded α} {k : α → Exec β} {l : α → Guarded β} (h : y s = lift x s)
    (hk : ∀ a t, x s = .ok a t → l a t = lift (k a) t) : (y >>= l) s = lift (x >>= k) s := by
  cases hx : x s with
  | error f t =>
    rw [lift_error hx] at h
    rw [Exec.bind_error h, lift_error (Exec.bind_error hx)]
  | ok a t =>
    rw [lift_ok hx] at h
    rw [Exec.bind_ok h, hk a t hx, lift, lift, Exec.bind_ok hx]

theorem Agrees.bind {P : State → Prop} {y : Guarded α} {k : α → Exec β} {l : α → Guarded β}
    (h : Agrees P x y) (hkeeps : Exec.Keeps P x) (hk : ∀ a, Agrees P (k a) (l a)) :
    Agrees P (x >>= k) (y >>= l) := by
  intro s hs
  refine lift_bind (h s hs) ?_
  intro a t hx
  have hleft := hkeeps s hs
  rw [hx] at hleft
  exact hk a t hleft

end Lift

section Host

variable {s : State} {a b i : Nat}

theorem add_ok (h : a + b < indexSpace) (s : State) : add a b s = .ok (a + b) s := by
  rw [add, if_pos h]
  rfl

theorem sub_ok (h : b ≤ a) (s : State) : sub a b s = .ok (a - b) s := by
  rw [sub, if_pos h]
  rfl

theorem read_ok (h : i < s.stack.size) : read i s = .ok (s.stack.getD i 0) s := by
  unfold read
  rw [Exec.get_bind, Array.getElem?_eq_getElem h, Array.getD_eq_getD_getElem?,
    Array.getElem?_eq_getElem h]
  rfl

theorem write_ok (w : Word) (h : i < s.stack.size) :
    write i w s = .ok () { s with stack := s.stack.setIfInBounds i w } := by
  unfold write
  rw [Exec.get_bind, if_pos h]
  rfl

theorem fill_ok {start stop : Nat} (hle : start ≤ stop) (h : stop ≤ s.stack.size) :
    fill start stop s = .ok () { s with stack := Exec.clear s.stack start stop } := by
  unfold fill
  rw [Exec.get_bind, if_neg (Nat.not_lt.mpr hle), if_pos h]
  rfl

theorem advance_ok {code : Array Word} {w : Word} (hcode : code.size < addressSpace)
    (h : code[s.pc]? = some w) : advance s = .ok () { s with pc := s.pc + 1 } := by
  have hpc := (Array.getElem?_eq_some_iff.mp h).1
  have hsum : s.pc + 1 < indexSpace := by
    unfold addressSpace at hcode
    unfold indexSpace
    omega
  unfold advance
  rw [Exec.get_bind, Exec.bind_ok (add_ok hsum s)]
  rfl

end Host

section Actions

variable {origin : Array Word} {bottom : Nat} {outer : List Caller} (address : Nat)
  (hsize : origin.size < addressSpace)

include hsize

/-- Every cell of the stack has an index, and so has the cell after the last. -/
theorem lt_indexSpace {s : State} (hs : s.Confined origin bottom outer) {n : Nat}
    (hn : n ≤ s.stack.size + 1) : n < indexSpace := by
  have hstack := hs.untouched.size
  unfold addressSpace at hsize
  unfold indexSpace
  omega

theorem floor_ok {s : State} (hs : s.Confined origin bottom outer) :
    add s.frame.base s.frame.locals s = .ok s.frame.floor s := by
  have hfloor := hs.fits.floor_le
  have htop := hs.fits.top_le
  exact add_ok (lt_indexSpace hsize hs (by unfold Frame.floor at hfloor; omega)) s

theorem pop_agrees :
    Agrees (State.Confined origin bottom outer) (Exec.pop address) (pop address) := by
  intro s hs
  have htop := hs.fits.top_le
  have hfloor := floor_ok hsize hs
  unfold pop
  rw [Exec.get_bind, Exec.bind_ok hfloor, lift, Exec.pop_apply]
  by_cases hlt : s.frame.floor < s.frame.top
  · have hcell : s.frame.top - 1 < s.stack.size := by omega
    rw [if_pos hlt, if_neg (Nat.not_le.mpr hlt), Exec.bind_ok (sub_ok (by omega) s)]
    exact read_ok hcell
  · rw [if_neg hlt, if_pos (Nat.not_lt.mp hlt)]
    rfl

theorem push_agrees (w : Word) :
    Agrees (State.Confined origin bottom outer) (Exec.push w) (push w) := by
  intro s hs
  unfold push
  rw [Exec.get_bind, lift, Exec.push_apply]
  by_cases hlt : s.frame.top < s.stack.size
  · have hsum : s.frame.top + 1 < indexSpace := lt_indexSpace hsize hs (by omega)
    rw [if_pos hlt, if_pos hlt, Exec.bind_ok (write_ok w hlt), Exec.bind_ok (add_ok hsum _)]
    rfl
  · rw [if_neg hlt, if_neg hlt]
    rfl

theorem localIndex_agrees (slot : Word) :
    Agrees (State.Confined origin bottom outer) (Exec.localIndex slot address)
      (localIndex slot address) := by
  intro s hs
  have hfloor := hs.fits.floor_le
  have htop := hs.fits.top_le
  unfold localIndex
  rw [Exec.get_bind, lift, Exec.localIndex_apply]
  cases slot.toIndex? with
  | none => rfl
  | some i =>
    dsimp only
    by_cases hlt : i < s.frame.locals
    · have hsum : s.frame.base + i < indexSpace := by
        refine lt_indexSpace hsize hs ?_
        unfold Frame.floor at hfloor
        omega
      rw [if_pos hlt, if_pos hlt]
      exact add_ok hsum s
    · rw [if_neg hlt, if_neg hlt]
      rfl

theorem load_agrees (slot : Word) :
    Agrees (State.Confined origin bottom outer) (Exec.loadSlot slot address)
      (loadSlot slot address) := by
  intro s hs
  refine lift_bind (localIndex_agrees address hsize slot s hs) ?_
  intro i t hindex
  obtain ⟨rfl, -, hlt⟩ := Exec.localIndex_eq_ok hindex
  have hcell : i < s.stack.size :=
    Nat.lt_of_lt_of_le hlt (Nat.le_trans hs.fits.floor_le hs.fits.top_le)
  rw [Exec.bind_ok (read_ok hcell)]
  exact ((push_agrees hsize _).bind (Exec.push_keeps _) fun _ => agrees_pure none) s hs

theorem store_agrees (slot : Word) :
    Agrees (State.Confined origin bottom outer) (Exec.storeSlot slot address)
      (storeSlot slot address) := by
  intro s hs
  refine lift_bind (localIndex_agrees address hsize slot s hs) ?_
  intro i t hindex
  obtain ⟨rfl, -, hlt⟩ := Exec.localIndex_eq_ok hindex
  refine lift_bind (pop_agrees address hsize s hs) ?_
  intro w u hpop
  have hu := Exec.pop_keeps address s hs
  rw [hpop] at hu
  have hcell : i < u.stack.size := by
    have hfloor := hs.fits.floor_le
    have htop := hs.fits.top_le
    rw [hu.untouched.size, ← hs.untouched.size]
    omega
  rw [Exec.bind_ok (write_ok w hcell)]
  rfl

theorem adjust_agrees (count : Word) :
    Agrees (State.Confined origin bottom outer) (Exec.adjust count address)
      (adjust count address) := by
  intro s hs
  have hfloor := hs.fits.floor_le
  have htop := hs.fits.top_le
  unfold adjust
  rw [Exec.get_bind, lift, Exec.adjust_apply]
  cases hcount : count.toIndex? with
  | none => rfl
  | some locals =>
    dsimp only
    have hlocals := Word.toIndex?_lt hcount
    -- The count may lie far beyond the stack, but a base and a word make an index together.
    have hsum : s.frame.base + locals < indexSpace := by
      have hstack := hs.untouched.size
      unfold Frame.floor at hfloor
      unfold addressSpace at hsize hlocals
      unfold indexSpace
      omega
    rw [Exec.bind_ok (add_ok hsum s)]
    by_cases hle : s.frame.base + locals ≤ s.stack.size
    · rw [if_pos hle, if_pos hle]
      by_cases hlt : s.frame.top < s.frame.base + locals
      · rw [if_pos hlt, Exec.bind_ok (fill_ok (Nat.le_of_lt hlt) hle)]
        rfl
      · rw [if_neg hlt, Exec.clear_of_le s.stack (Nat.le_of_not_lt hlt)]
        rfl
    · rw [if_neg hle, if_neg hle]
      rfl

theorem enter_agrees {limit : Nat} (hlimit : limit < addressSpace) (code : Array Word)
    (argc target : Word) :
    Agrees (State.Confined origin bottom outer) (Exec.enter limit code argc target address)
      (enter limit code argc target address) := by
  intro s hs
  have hfloor := hs.fits.floor_le
  unfold enter
  rw [Exec.get_bind, lift, Exec.enter_apply]
  cases argc.toIndex? with
  | none => rfl
  | some n =>
    dsimp only
    rw [Exec.bind_ok (floor_ok hsize hs), Exec.bind_ok (sub_ok hfloor s)]
    by_cases hargs : s.frame.top - s.frame.floor < n
    · rw [if_pos hargs, if_pos hargs]
      rfl
    · rw [if_neg hargs, if_neg hargs]
      cases target.toIndex? with
      | none => rfl
      | some entry =>
        dsimp only
        by_cases hentry : code.size ≤ entry
        · rw [if_pos hentry, if_pos hentry]
          rfl
        · rw [if_neg hentry, if_neg hentry]
          by_cases hdepth : limit ≤ s.depth
          · rw [if_pos hdepth, if_pos hdepth]
            rfl
          · have hsum : s.depth + 1 < indexSpace := by
              unfold addressSpace at hlimit
              unfold indexSpace
              omega
            rw [if_neg hdepth, if_neg hdepth, Exec.bind_ok (add_ok hsum s),
              Exec.bind_ok (sub_ok (by omega) s)]
            rfl

/-- A waiting caller has its arguments on its stack, and its call has raised the depth. -/
theorem leave_agrees (w : Word) :
    Agrees (State.Confined origin bottom []) (Exec.leave w) (leave w) := by
  intro s hs
  unfold leave
  rw [Exec.get_bind, lift, Exec.leave_apply]
  cases hcallers : s.callers with
  | nil => rfl
  | cons c callers =>
    have hdepth := hs.depth
    have hstacked := hs.stacked
    rw [hcallers, List.length_cons] at hdepth
    rw [hcallers] at hstacked
    obtain ⟨hfits, hargs, -, -⟩ := hstacked.inner (List.cons_ne_nil _ _)
    have hfloor := hfits.floor_le
    dsimp only
    rw [Exec.bind_ok (sub_ok (by omega) s), Exec.bind_ok (sub_ok (by omega) s)]
    exact ((push_agrees hsize w).bind (Exec.push_keeps w) fun _ => agrees_pure none) _
      (hs.caller hcallers (List.cons_ne_nil _ _))

omit hsize in
theorem immediate_agrees {code : Array Word} (hcode : code.size < addressSpace) :
    Agrees (State.Confined origin bottom outer) (Exec.immediate code address)
      (immediate code address) := by
  intro s _
  unfold immediate
  rw [Exec.get_bind, lift, Exec.immediate_apply]
  cases hw : code[s.pc]? with
  | none => rfl
  | some w =>
    dsimp only
    rw [Exec.bind_ok (advance_ok hcode hw)]
    rfl

theorem performUnary_agrees (word : Word) (op : Opcode) :
    Agrees (State.Confined origin bottom []) (Exec.performUnary word address op)
      (performUnary word address op) := by
  refine (pop_agrees address hsize).bind (Exec.pop_keeps address) fun a => ?_
  cases op.applyUnary? a with
  | none => exact agrees_raise _
  | some w => exact (push_agrees hsize w).bind (Exec.push_keeps w) fun _ => agrees_pure none

theorem performBinary_agrees (op : Opcode) :
    Agrees (State.Confined origin bottom []) (Exec.performBinary address op)
      (performBinary address op) := by
  refine (pop_agrees address hsize).bind (Exec.pop_keeps address) fun b => ?_
  refine (pop_agrees address hsize).bind (Exec.pop_keeps address) fun a => ?_
  cases op.applyBinary a b address with
  | error f => exact agrees_raise _
  | ok w => exact (push_agrees hsize w).bind (Exec.push_keeps w) fun _ => agrees_pure none

theorem performPlain_agrees {limit : Nat} (hlimit : limit < addressSpace) {code : Array Word}
    (hcode : code.size < addressSpace) (word : Word) (op : Opcode) :
    Agrees (State.Confined origin bottom []) (Exec.performPlain limit code word address op)
      (performPlain limit code word address op) := by
  have hpop := @pop_agrees origin bottom [] address hsize
  have hpush := @push_agrees origin bottom [] hsize
  have himm := @immediate_agrees origin bottom [] address code hcode
  have hkpop := @Exec.pop_keeps origin bottom [] address
  have hkpush := @Exec.push_keeps origin bottom []
  have hkimm := @Exec.immediate_keeps origin bottom [] address code
  have hnone := @agrees_pure _ (State.Confined origin bottom []) (none : Option Word)
  cases op with
  | unary op | binary op => cases op <;> exact agrees_raise _
  | load => exact himm.bind hkimm fun slot => load_agrees address hsize slot
  | store => exact himm.bind hkimm fun slot => store_agrees address hsize slot
  | int => exact himm.bind hkimm fun w => (hpush w).bind (hkpush w) fun _ => hnone
  | jumpIfFalse =>
    refine hpop.bind hkpop fun w => ?_
    split
    next => exact Agrees.bind (fun _ _ => rfl) (Exec.follow_keeps _ code) fun _ => hnone
    next => exact himm.bind hkimm fun _ => hnone
  | jump => exact Agrees.bind (fun _ _ => rfl) (Exec.follow_keeps _ code) fun _ => hnone
  | stackAdjust =>
    exact himm.bind hkimm fun count =>
      (adjust_agrees address hsize count).bind (Exec.adjust_keeps _ count) fun _ => hnone
  | call =>
    exact himm.bind hkimm fun argc => himm.bind hkimm fun target =>
      (enter_agrees address hsize hlimit code argc target).bind
        (Exec.enter_keeps _ limit code argc target) fun _ => hnone
  | ret => exact hpop.bind hkpop fun w => leave_agrees hsize w
  | pop => exact hpop.bind hkpop fun _ => hnone

theorem step_agrees {limit : Nat} (hlimit : limit < addressSpace) {code : Array Word}
    (hcode : code.size < addressSpace) :
    Agrees (State.Confined origin bottom []) (Exec.step limit code) (step limit code) := by
  intro s hs
  unfold step Exec.step
  rw [Exec.get_bind, lift, Exec.get_bind]
  cases hword : code[s.pc]? with
  | none => rfl
  | some word =>
    dsimp only
    rw [Exec.bind_ok (advance_ok hcode hword)]
    have hopcode : Exec.Keeps (State.Confined origin bottom []) (Exec.opcode word s.pc) := by
      unfold Exec.opcode
      cases Opcode.ofWord? word with
      | none => exact Exec.keeps_throw _
      | some op => exact Exec.keeps_pure op
    have hgo := hs.goTo (s.pc + 1)
    split
    · exact Agrees.bind (fun _ _ => rfl) hopcode (performUnary_agrees s.pc hsize word) _ hgo
    · split
      · exact Agrees.bind (fun _ _ => rfl) hopcode (performBinary_agrees s.pc hsize) _ hgo
      · exact Agrees.bind (fun _ _ => rfl) hopcode
          (performPlain_agrees s.pc hsize hlimit hcode word) _ hgo

theorem runFrom_agrees {limit : Nat} (hlimit : limit < addressSpace) {code : Array Word}
    (hcode : code.size < addressSpace) (steps : Nat) {s : State}
    (hs : s.Confined origin bottom []) :
    runFrom limit code steps s =
      (Exec.runFrom limit code steps s).map fun o => (o.result.mapError .fault, o.state) := by
  induction steps generalizing s with
  | zero => rfl
  | succ steps ih =>
    have hstep := step_agrees hsize hlimit hcode s hs
    have hleft := Exec.step_keeps limit code s hs
    rw [runFrom, Exec.runFrom, EStateM.run, EStateM.run]
    cases hx : Exec.step limit code s with
    | error f t =>
      rw [hstep, lift_error hx]
      rfl
    | ok answer t =>
      rw [hx] at hleft
      rw [hstep, lift_ok hx]
      cases answer with
      | none => exact ih hleft
      | some w => rfl

end Actions

end Guarded

theorem State.Confined.frames_fit {origin : Array Word} {bottom : Nat} {s : State}
    (hs : s.Confined origin bottom []) {f : Frame}
    (hf : f ∈ s.frame :: s.callers.map Caller.frame) : f.Fits s.stack.size := by
  rcases List.mem_cons.mp hf with rfl | hf
  · exact hs.fits
  · obtain ⟨c, hc, rfl⟩ := List.mem_map.mp hf
    exact hs.stacked.fits_of_mem hc

namespace Machine

theorem guarded_execute (m : Machine) {code : Array Word} (hsize : m.stack.size < addressSpace)
    (hcode : code.size < addressSpace) (steps entry base : Nat) :
    Guarded.execute m steps code entry base =
      (m.execute steps code entry base).map fun o => (o.1.mapError .fault, o.2) := by
  by_cases hbase : base ≤ m.stack.size
  · have hlimit : m.limits.callDepth < addressSpace :=
      Nat.lt_of_le_of_lt (Nat.min_le_right _ _) (by decide)
    rw [Guarded.execute, if_neg (Nat.not_lt.mpr hbase), execute_of_le hbase,
      Guarded.runFrom_agrees hsize hlimit hcode steps (m.start_confined entry hbase),
      Option.map_map, Option.map_map]
    rfl
  · have hlt := Nat.lt_of_not_le hbase
    rw [Guarded.execute, execute, if_pos hlt, if_pos hlt]
    rfl

/-- Whatever the code and the limits, as long as stack and code fit into memory: in every state that
a run passes or ends in, the stack has its capacity, the depth counts the waiting invocations and all
frames lie in the stack, and the host carries the run out without a failure of its own. -/
theorem execute_stays_in_memory (m : Machine) (hm : m.Occurs) (code : Array Word)
    (hcapacity : m.limits.stackCapacity < addressSpace) (hcode : code.size < addressSpace)
    (entry base : Nat) :
    (∀ s, base ≤ m.stack.size →
      (Exec.Visits m.limits.callDepth code (m.start entry base) s ∨
        ∃ steps r, Exec.runFrom m.limits.callDepth code steps (m.start entry base) = some ⟨r, s⟩) →
      s.stack.size = m.limits.stackCapacity ∧ s.depth = s.callers.length ∧
        ∀ f ∈ s.frame :: s.callers.map Caller.frame,
          f.base ≤ f.base + f.locals ∧ f.base + f.locals ≤ f.top ∧ f.top ≤ s.stack.size) ∧
    ∀ steps, Guarded.execute m steps code entry base =
      (m.execute steps code entry base).map fun o => (o.1.mapError .fault, o.2) := by
  refine ⟨?_, fun steps => m.guarded_execute (hm.size_stack ▸ hcapacity) hcode steps entry base⟩
  intro s hbase hreached
  have hstart := m.start_confined entry hbase
  have hs : s.Confined m.stack base [] := by
    rcases hreached with hvisits | ⟨steps, r, hrun⟩
    · exact hvisits.keeps (Exec.step_keeps _ _) hstart
    · exact Exec.runFrom_keeps (Exec.step_keeps _ _) hstart hrun
  refine ⟨hs.untouched.size.trans hm.size_stack, hs.depth, ?_⟩
  intro f hf
  have hfits := hs.frames_fit hf
  exact ⟨Nat.le_add_right _ _, hfits.floor_le, hfits.top_le⟩

theorem execute_stays_in_memory_negation :
    (new ⟨8, 2⟩).Occurs ∧ 8 < addressSpace ∧ Sample.negatingCode.size < addressSpace ∧
      (∃ s, Exec.Visits 2 Sample.negatingCode ((new ⟨8, 2⟩).start 0 2) s ∧ s.callers.length = 1 ∧
        s.stack.size = 8 ∧ s.depth = s.callers.length ∧ ∀ f ∈ s.frame :: s.callers.map Caller.frame,
          f.base ≤ f.base + f.locals ∧ f.base + f.locals ≤ f.top ∧ f.top ≤ s.stack.size) ∧
      Guarded.execute (new ⟨8, 2⟩) 20 Sample.negatingCode 0 2 =
        some (.ok (-5), ⟨⟨8, 2⟩, #[0, 0, 7, -5, 0, -5, 0, 0], 0⟩) := by
  have hmemory := execute_stays_in_memory (new ⟨8, 2⟩) (.new _) Sample.negatingCode (by decide)
    (by decide) 0 2
  have hcallee : Exec.Visits 2 Sample.negatingCode ((new ⟨8, 2⟩).start 0 2)
      ⟨#[0, 0, 7, 5, 0, 0, 0, 0], 8, ⟨3, 0, 4⟩, 8, 1, [⟨⟨2, 0, 4⟩, 7, 1⟩]⟩ :=
    .next (.next (.next .here rfl) rfl) rfl
  exact ⟨.new _, by decide, by decide, ⟨_, hcallee, rfl, hmemory.1 _ (by decide) (.inl hcallee)⟩,
    (hmemory.2 20).trans rfl⟩

end Machine

end Wordcode
