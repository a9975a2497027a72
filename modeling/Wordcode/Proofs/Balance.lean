import Wordcode.Proofs.Containment

/-!
Temporaries at run time: each address of a body goes with a height, which every run keeps to. So the
stack runs full only where a frame would need more cells than its body takes up.
-/

namespace Wordcode

/-- A slot count that is read back is no larger than the count that was written. -/
theorem Word.toIndex?_ofNat_le {n k : Nat} (h : Word.toIndex? (.ofNat n) = some k) : k ≤ n := by
  have hint : (Int64.ofNat n).toInt = (n : Int).bmod (2 ^ 64) := Int64.toInt_ofNat
  unfold Word.toIndex? at h
  split at h
  next hpos =>
    cases h
    rw [hint] at hpos ⊢
    rw [Int.bmod] at hpos ⊢
    split at hpos <;> split <;> omega
  next => cases h

def Instruction.Plain (i : Instruction) : Prop :=
  i.opcode ≠ .call ∧ i.opcode ≠ .ret ∧ i.opcode ≠ .stackAdjust

namespace Exec

structure Lifted (s : State) (top : Nat) (t : State) : Prop where
  frame : t.frame = { s.frame with top }
  callers : t.callers = s.callers
  depth : t.depth = s.depth
  size : t.stack.size = s.stack.size

theorem Lifted.trans {s t u : State} {mid top : Nat} (h : Lifted s mid t) (h' : Lifted t top u) :
    Lifted s top u := by
  refine ⟨?_, h'.callers.trans h.callers, h'.depth.trans h.depth, h'.size.trans h.size⟩
  rw [h'.frame, h.frame]

/-- The action ends with the temporaries up to `top`, and the stack runs full only if it has no room
for them. -/
inductive Lifts {α : Type} (s : State) (top : Nat) : EStateM.Result Fault State α → Prop where
  | ok {a : α} {t : State} (lifted : Lifted s top t) : Lifts s top (.ok a t)
  | overflow {n : Nat} {t : State} (full : s.stack.size < top) :
      Lifts s top (.error (.stackOverflow n) t)
  | fault {f : Fault} {t : State} (other : ∀ n, f ≠ .stackOverflow n) : Lifts s top (.error f t)

section Lifts

variable {α β : Type} {s : State} {mid top : Nat} {x : Exec α} {k : α → Exec β} (address : Nat)

theorem lifts_pure (a : α) (s : State) : Lifts s s.frame.top ((pure a : Exec α) s) :=
  .ok ⟨rfl, rfl, rfl, rfl⟩

theorem Lifts.bind (hx : Lifts s mid (x s)) (hle : mid ≤ top)
    (hk : ∀ a t, t.frame.top = mid → Lifts t top (k a t)) : Lifts s top ((x >>= k) s) := by
  generalize hr : x s = r at hx
  cases hx with
  | @ok a t lifted =>
    rw [bind_ok hr]
    have hrest := hk a t (by rw [lifted.frame])
    generalize k a t = r' at hrest
    cases hrest with
    | ok lifted' => exact .ok (lifted.trans lifted')
    | overflow full => exact .overflow (lifted.size ▸ full)
    | fault other => exact .fault other
  | overflow full =>
    rw [bind_error hr]
    exact .overflow (Nat.lt_of_lt_of_le full hle)
  | fault other =>
    rw [bind_error hr]
    exact .fault other

theorem pop_lifts (s : State) : Lifts s (s.frame.top - 1) (pop address s) := by
  rw [pop_apply]
  split
  next => exact .ok ⟨rfl, rfl, rfl, rfl⟩
  next => exact .fault nofun

theorem push_lifts (w : Word) (s : State) : Lifts s (s.frame.top + 1) (push w s) := by
  rw [push_apply]
  split
  next => exact .ok ⟨rfl, rfl, rfl, Array.size_setIfInBounds⟩
  next hfull => exact .overflow (Nat.lt_succ_of_le (Nat.le_of_not_lt hfull))

theorem localIndex_lifts (slot : Word) (s : State) :
    Lifts s s.frame.top (localIndex slot address s) := by
  rcases localIndex_cases address slot s with ⟨i, -, -, hok⟩ | herror
  · rw [hok]
    exact .ok ⟨rfl, rfl, rfl, rfl⟩
  · rw [herror]
    exact .fault nofun

theorem leap_lifts (code : Array Word) (target : Option Word) (s : State) :
    Lifts s s.frame.top (leap code address target s) := by
  cases target with
  | none => exact .fault nofun
  | some w =>
    dsimp only [leap]
    cases w.toIndex? with
    | none => exact .fault nofun
    | some n =>
      dsimp only
      split
      next => exact .ok ⟨rfl, rfl, rfl, rfl⟩
      next => exact .fault nofun

theorem lifts_then_none (hx : Lifts s top (x s)) :
    Lifts s top ((x >>= fun _ => pure none : Exec (Option Word)) s) :=
  hx.bind (Nat.le_refl _) fun _ t ht => by
    rw [← ht]
    exact lifts_pure none t

theorem load_lifts (slot : Word) (s : State) :
    Lifts s (s.frame.top + 1) (loadSlot slot address s) := by
  refine (localIndex_lifts address slot s).bind (Nat.le_succ _) fun i t ht => ?_
  rw [get_bind, ← ht]
  exact lifts_then_none (push_lifts _ t)

theorem store_lifts (slot : Word) (s : State) :
    Lifts s (s.frame.top - 1) (storeSlot slot address s) := by
  unfold storeSlot
  -- The slot is looked up before the word is taken.
  rcases localIndex_cases address slot s with ⟨i, -, -, hok⟩ | herror
  · rw [bind_ok hok]
    refine (pop_lifts address s).bind (Nat.le_refl _) fun w t ht => ?_
    rw [← ht]
    exact .ok ⟨rfl, rfl, rfl, Array.size_setIfInBounds⟩
  · rw [bind_error herror]
    exact .fault nofun

/-- A plain instruction takes and gives as many temporaries as it says. -/
theorem perform_lifts (limit : Nat) (code : Array Word) {i : Instruction} (hi : i.Plain)
    (s : State) :
    Lifts s (s.frame.top - i.takes + i.gives) (i.perform limit code address s) := by
  cases i with
  | unary op =>
    change Lifts s (s.frame.top - 1 + 1) _
    refine (pop_lifts address s).bind (Nat.le_succ _) fun a t ht => ?_
    rw [← ht]
    exact lifts_then_none (push_lifts _ t)
  | binary op =>
    change Lifts s (s.frame.top - 2 + 1) _
    refine (pop_lifts address s).bind (by omega) fun b t ht => ?_
    refine (pop_lifts address t).bind (by omega) fun a u hu => ?_
    have htop : s.frame.top - 2 + 1 = u.frame.top + 1 := by omega
    cases op.apply a b with
    | ok w =>
      rw [htop]
      exact lifts_then_none (push_lifts w u)
    | error e => exact .fault (by cases e <;> nofun)
  | load slot => exact load_lifts address slot s
  | store slot => exact store_lifts address slot s
  | int w => exact lifts_then_none (push_lifts w s)
  | jumpIfFalse offset =>
    change Lifts s (s.frame.top - 1) _
    refine (pop_lifts address s).bind (Nat.le_refl _) fun w t ht => ?_
    rw [← ht]
    split
    next => exact lifts_then_none (leap_lifts address code _ t)
    next => exact lifts_pure none t
  | jump offset => exact lifts_then_none (leap_lifts address code _ s)
  | stackAdjust count => exact absurd rfl hi.2.2
  | call argc target => exact absurd rfl hi.1
  | ret => exact absurd rfl hi.2.1
  | pop => exact lifts_then_none (pop_lifts address s)

end Lifts

end Exec

namespace Image

open Instruction (Climbs place)

/-- A body whose code leads from height to height, to none above `high`, and whose jumps lead where
no temporaries are left. -/
structure Graded (im : Image) (b : Body) (high : Nat) (is : List Instruction) : Prop where
  fills : im.Fills b (.stackAdjust (.ofNat b.locals.length) :: is)
  climbs : Climbs 0 high 0 is 0
  last : ∃ offset, is.getLast? = some (.jump offset)
  lands : ∀ a i target, (a, i) ∈ place (b.start + 2) is → i.jumpTarget a = some target →
    ∃ n, target.toIndex? = some n ∧ (n = im.code.size ∨ ∃ j, Finds (b.start + 2) is n 0 j)
  calls : ∀ a argc target, (a, .call argc target) ∈ place (b.start + 2) is →
    ∃ b' ∈ im.bodies, target.toIndex? = some b'.start

def Bounded (im : Image) (room : Nat) : Prop :=
  ∀ b ∈ im.bodies, ∃ high is, b.locals.length + high ≤ room ∧ im.Graded b high is

def Poised (im : Image) (room locals pc h : Nat) : Prop :=
  ∃ b ∈ im.bodies, ∃ high is i, locals + high ≤ room ∧ im.Graded b high is ∧
    Finds (b.start + 2) is pc h i

structure Guides (im : Image) (room locals pc h : Nat) (i : Instruction) : Prop where
  decodes : decode im.code pc = .ok i
  suits : i.Suits 0 h
  rise_le : locals + i.rise h ≤ room
  next : (∀ offset, i ≠ .jump offset) → im.Poised room locals (pc + i.width) (i.rise h)
  lands : ∀ target n, i.jumpTarget pc = some target → target.toIndex? = some n →
    n = im.code.size ∨ im.Poised room locals n 0
  calls : ∀ argc target, i = .call argc target → ∃ b ∈ im.bodies, target.toIndex? = some b.start

variable {im : Image} {room locals pc h limit : Nat} {b : Body}

theorem Poised.guides (hp : im.Poised room locals pc h) : ∃ i, im.Guides room locals pc h i := by
  obtain ⟨b, hbody, high, is, i, hroom, hg, hfinds⟩ := hp
  have hplace := hfinds.mem_place
  have hhas : im.Has b pc i := hg.fills.has_iff.mpr (List.mem_cons_of_mem _ hplace)
  have hnext := hfinds.next
  obtain ⟨before, after, heq, -, hlevel⟩ := hfinds
  have hclimbs := hg.climbs
  rw [heq] at hclimbs
  refine ⟨i, decode_of_has hhas, hlevel ▸ hclimbs.suits, ?_, ?_, ?_, ?_⟩
  · rw [← List.singleton_append, ← List.append_assoc] at hclimbs
    have hle := hclimbs.level_le
    rw [Instruction.level_append, hlevel] at hle
    exact Nat.le_trans (Nat.add_le_add_left hle locals) hroom
  · intro hfalls
    rcases hnext with hlast | ⟨j, hj⟩
    · obtain ⟨offset, hjump⟩ := hg.last
      rw [hjump] at hlast
      exact absurd (Option.some.inj hlast).symm (hfalls offset)
    · exact ⟨b, hbody, high, is, j, hroom, hg, hj⟩
  · intro target n htarget hn
    obtain ⟨n', hn', hlands⟩ := hg.lands pc i target hplace htarget
    rw [hn] at hn'
    cases hn'
    exact hlands.imp_right fun ⟨j, hj⟩ => ⟨b, hbody, high, is, j, hroom, hg, hj⟩
  · intro argc target hcall
    rw [hcall] at hplace
    exact hg.calls pc argc target hplace

theorem Poised.height_le (hp : im.Poised room locals pc h) : locals + h ≤ room := by
  obtain ⟨b, -, high, is, i, hroom, hg, before, after, rfl, -, rfl⟩ := hp
  exact Nat.le_trans (Nat.add_le_add_left hg.climbs.level_le locals) hroom

inductive Settled (im : Image) (room : Nat) (f : Frame) (pc : Nat) : Prop where
  | within {h : Nat} (poised : im.Poised room f.locals pc h) (top : f.top = f.floor + h)
  | ended (stop : pc = im.code.size) (top : f.top = f.floor)

inductive Stage (im : Image) (room : Nat) (f : Frame) (pc : Nat) : Prop where
  | begun {b : Body} (body : b ∈ im.bodies) (start : pc = b.start)
  | settled (further : im.Settled room f pc)

/-- The running invocation has as many temporaries as its place in the code tells, and every waiting
one will have, once the value of its call is there. -/
structure Balanced (im : Image) (room limit : Nat) (s : State) : Prop where
  running : im.Stage room s.frame s.pc
  waiting : ∀ c ∈ s.callers, ∃ h, im.Poised room c.frame.locals c.pc (h + 1) ∧
    c.frame.top = c.frame.floor + h + c.argc
  nested : s.depth ≤ limit

/-- How a step from a balanced state ends: in a balanced state, with the answer, or in a fault. Only
a call leads to the start of a body. The stack runs full only if it has no room for the frame of the
running invocation. -/
inductive Advances (im : Image) (room limit : Nat) (s : State) :
    EStateM.Result Fault State (Option Word) → Prop where
  | next {t : State} (balanced : im.Balanced room limit t)
      (settled : t.callers.length ≤ s.callers.length → im.Settled room t.frame t.pc) :
      Advances im room limit s (.ok none t)
  | answer {w : Word} {t : State} : Advances im room limit s (.ok (some w) t)
  | overflow {n : Nat} {t : State} (full : s.stack.size < s.frame.base + room) :
      Advances im room limit s (.error (.stackOverflow n) t)
  | fault {f : Fault} {t : State} (other : ∀ n, f ≠ .stackOverflow n) :
      Advances im room limit s (.error f t)

theorem Advances.of_settled {s t : State} (further : im.Settled room t.frame t.pc)
    (waiting : ∀ c ∈ t.callers, ∃ h, im.Poised room c.frame.locals c.pc (h + 1) ∧
      c.frame.top = c.frame.floor + h + c.argc) (nested : t.depth ≤ limit) :
    im.Advances room limit s (.ok none t) :=
  .next ⟨.settled further, waiting, nested⟩ fun _ => further

theorem Advances.of_same {s : State} {r r' : EStateM.Result Fault State (Option Word)}
    (hsame : Exec.SameEnd r r') (h' : im.Advances room limit s r') :
    im.Advances room limit s r := by
  cases hsame with
  | ok => exact h'
  | error =>
    cases h' with
    | overflow full => exact .overflow full
    | fault other => exact .fault other

section Steps

variable {s : State} {i : Instruction} (hb : im.Balanced room limit s)

include hb

theorem Balanced.plain (hg : im.Guides room s.frame.locals s.pc h i) (hi : i.Plain)
    (htop : s.frame.top = s.frame.floor + h) :
    im.Advances room limit s
      (i.perform limit im.code s.pc { s with pc := s.pc + i.width }) := by
  have hrise : s.frame.top - i.takes + i.gives = s.frame.floor + i.rise h := by
    have htakes := hg.suits.takes
    unfold Instruction.rise
    omega
  have hlifts := Exec.perform_lifts s.pc limit im.code hi { s with pc := s.pc + i.width }
  generalize hr : i.perform limit im.code s.pc _ = r at hlifts
  dsimp only at hlifts
  rw [hrise] at hlifts
  cases hlifts with
  | @ok answer t lifted =>
    cases answer with
    | some w => exact .answer
    | none =>
      have hleads := Exec.perform_leads rfl hr
      refine .of_settled ?_ (lifted.callers ▸ hb.waiting) (lifted.depth ▸ hb.nested)
      generalize hcounters : t.counters = cs at hleads
      rw [lifted.frame]
      cases hleads with
      | next falls =>
        rw [(List.cons.inj hcounters).1]
        exact .within (hg.next falls) rfl
      | @jump _ target n leads index =>
        obtain ⟨offset, hoffset⟩ := Instruction.offset?_of_jumpTarget leads
        have hzero : i.rise h = 0 := hg.suits.jumps (by rw [hoffset]; exact Option.some_ne_none _)
        rw [(List.cons.inj hcounters).1, hzero]
        exact (hg.lands target n leads index).elim (.ended · rfl) fun hpoised =>
          .within hpoised rfl
      | call => exact absurd rfl hi.1
      | ret => exact absurd rfl hi.2.1
  | overflow full =>
    have hle := hg.rise_le
    have hfloor : s.frame.floor = s.frame.base + s.frame.locals := rfl
    exact .overflow (Nat.lt_of_lt_of_le full (by omega))
  | fault other => exact .fault other

theorem Balanced.call {argc target : Word}
    (hg : im.Guides room s.frame.locals s.pc h (.call argc target))
    (htop : s.frame.top = s.frame.floor + h) :
    im.Advances room limit s ((Instruction.call argc target).perform limit im.code s.pc
      { s with pc := s.pc + (Instruction.call argc target).width }) := by
  rw [Instruction.perform]
  cases henter : Exec.enter limit im.code argc target s.pc
      { s with pc := s.pc + (Instruction.call argc target).width } with
  | error f t =>
    rw [Exec.bind_error henter]
    exact .fault (Exec.enter_eq_error henter)
  | ok _ t =>
    rw [Exec.bind_ok henter]
    obtain ⟨n, entry, hn, hentry, -, hdepth, rfl⟩ := Exec.enter_eq_ok henter
    obtain ⟨b, hbody, htarget⟩ := hg.calls argc target rfl
    rw [hentry] at htarget
    have htakes := hg.suits.takes
    have hnext := hg.next (by simp)
    rw [Instruction.rise, Instruction.takes, hn] at hnext
    rw [Instruction.takes, hn, Option.getD_some] at htakes
    refine .next ⟨.begun hbody (Option.some.inj htarget), ?_, hdepth⟩
      fun hle => absurd hle (Nat.not_succ_le_self _)
    -- The caller has its arguments on top, and the value of the call will take their place.
    refine List.forall_mem_cons.mpr ⟨⟨h - n, hnext, ?_⟩, hb.waiting⟩
    dsimp only
    omega

theorem Balanced.ret {origin : Array Word} {bottom : Nat} (hs : s.Confined origin bottom []) :
    im.Advances room limit s (Instruction.ret.perform limit im.code s.pc
      { s with pc := s.pc + Instruction.ret.width }) := by
  have hpop := Exec.pop_apply { s with pc := s.pc + Instruction.ret.width } s.pc
  rw [Instruction.perform]
  by_cases hlt : s.frame.floor < s.frame.top
  · rw [if_pos hlt] at hpop
    rw [Exec.bind_ok hpop, Exec.leave_apply]
    cases hcallers : s.callers with
    | nil => exact .answer
    | cons c callers =>
      obtain ⟨⟨h, hpoised, htop⟩, hrest⟩ := List.forall_mem_cons.mp (hcallers ▸ hb.waiting)
      have hnested := hb.nested
      have hstacked := hs.stacked
      rw [hcallers] at hstacked
      obtain ⟨-, -, hbase, -⟩ := hstacked.inner (List.cons_ne_nil _ _)
      have hle := hpoised.height_le
      have hfloor : c.frame.floor = c.frame.base + c.frame.locals := rfl
      dsimp only
      have hpush := Exec.push_apply { s with
        frame := { c.frame with top := c.frame.top - c.argc }
        pc := c.pc
        depth := s.depth - 1
        callers } (s.stack.getD (s.frame.top - 1) 0)
      by_cases hroom : c.frame.top - c.argc < s.stack.size
      · rw [if_pos hroom] at hpush
        rw [Exec.bind_ok hpush]
        refine .of_settled (.within hpoised ?_) hrest ?_
        · change c.frame.top - c.argc + 1 = c.frame.floor + (h + 1)
          omega
        · dsimp only
          omega
      · rw [if_neg hroom] at hpush
        rw [Exec.bind_error hpush]
        exact .overflow (by omega)
  · rw [if_neg hlt] at hpop
    rw [Exec.bind_error hpop]
    exact .fault (by simp)

/-- An invocation begins by making room for its slots. -/
theorem Balanced.begin {high : Nat} {is : List Instruction} (hbody : b ∈ im.bodies)
    (hroom : b.locals.length + high ≤ room) (hg : im.Graded b high is) (hpc : s.pc = b.start) :
    im.Advances room limit s
      ((Instruction.stackAdjust (.ofNat b.locals.length)).perform limit im.code s.pc
        { s with pc := s.pc + 2 }) := by
  have hadjust := Exec.adjust_apply { s with pc := s.pc + 2 } s.pc (.ofNat b.locals.length)
  rw [Instruction.perform]
  cases hcount : Word.toIndex? (.ofNat b.locals.length) with
  | none =>
    rw [hcount] at hadjust
    rw [Exec.bind_error hadjust]
    exact .fault (by simp)
  | some locals =>
    have hle := Word.toIndex?_ofNat_le hcount
    rw [hcount] at hadjust
    dsimp only at hadjust
    by_cases hfits : s.frame.base + locals ≤ s.stack.size
    · rw [if_pos hfits] at hadjust
      rw [Exec.bind_ok hadjust]
      obtain ⟨offset, hlast⟩ := hg.last
      obtain ⟨i, rest, rfl⟩ := List.exists_cons_of_ne_nil (l := is) (by rintro rfl; cases hlast)
      refine .of_settled (.within ⟨b, hbody, high, _, i, ?_, hg, [], rest, rfl, ?_, rfl⟩ rfl)
        hb.waiting hb.nested
      · dsimp only
        omega
      · dsimp only
        rw [hpc]
        rfl
    · rw [if_neg hfits] at hadjust
      rw [Exec.bind_error hadjust]
      exact .overflow (by omega)

/-- A balanced state stays balanced from step to step. -/
theorem Balanced.step {origin : Array Word} {bottom : Nat} (hbounded : im.Bounded room)
    (hsize : im.code.size < addressSpace) (hs : s.Confined origin bottom []) :
    im.Advances room limit s (Exec.step limit im.code s) := by
  have hsame := Exec.step_same hsize limit s
  cases hb.running with
  | @begun b body start =>
    obtain ⟨high, is, hroom, hg⟩ := hbounded b body
    have hdecode : decode im.code s.pc = .ok (.stackAdjust (.ofNat b.locals.length)) := by
      rw [start]
      exact decode_of_has (hg.fills.has_iff.mpr List.mem_cons_self)
    rw [Exec.stepDecoded_of_decode limit hdecode] at hsame
    exact .of_same hsame (hb.begin body hroom hg start)
  | settled further =>
    cases further with
    | within hpoised htop =>
      obtain ⟨i, hg⟩ := hpoised.guides
      rw [Exec.stepDecoded_of_decode limit hg.decodes] at hsame
      refine .of_same hsame ?_
      cases i with
      | call argc target => exact hb.call hg htop
      | ret => exact hb.ret hs
      | unary op =>
        exact hb.plain hg ⟨Opcode.unary_ne op rfl, Opcode.unary_ne op rfl, hg.suits.slots⟩ htop
      | binary op =>
        exact hb.plain hg ⟨Opcode.binary_ne op rfl, Opcode.binary_ne op rfl, hg.suits.slots⟩ htop
      | _ => exact hb.plain hg ⟨nofun, nofun, hg.suits.slots⟩ htop
    | ended stop =>
      rw [Exec.step_apply, stop, Array.getElem?_eq_none (Nat.le_refl _)]
      exact .fault (by simp)

end Steps

end Image

end Wordcode
