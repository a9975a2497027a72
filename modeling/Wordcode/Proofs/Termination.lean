import Mathlib.Algebra.Group.Nat.Defs
import Wordcode.Proofs.CallDepth

/-!
Programs without loops come to an end. What is left of the code for the active invocations, read as
the digits of one number, gets less with every step.
-/

namespace Wordcode

mutual
def Statement.isLoopless : Statement → Bool
  | .declare _ _ _ | .assign _ _ _ | .discard _ _ | .ret _ _ => true
  | .cond _ yes none _ => Block.isLoopless yes
  | .cond _ yes (some no) _ => Block.isLoopless yes && Block.isLoopless no
  | .loop _ _ _ => false
def Block.isLoopless : Block → Bool
  | [] => true
  | s :: rest => s.isLoopless && Block.isLoopless rest
end

def Program.isLoopless (p : Program) : Bool :=
  p.functions.all (Block.isLoopless ·.body) && Block.isLoopless p.main

namespace Instruction

def Forward (i : Instruction) : Prop := ∀ offset, i.offset? = some offset → 0 < offset.toInt

theorem forward_of_straight {i : Instruction} (h : i.offset? = none) : i.Forward := by
  intro offset hoffset
  simp [h] at hoffset

theorem forward_of_offset {i : Instruction} {n : Nat} (h : i.offset? = some (.ofNat (n + 1)))
    (hn : n + 1 < addressSpace) : i.Forward := by
  intro offset hoffset
  rw [h] at hoffset
  cases hoffset
  rw [Word.toInt_ofNat hn]
  omega

end Instruction

section Forward

variable (l : Linkage)

theorem Operand.forward (x : Operand) : ∀ i ∈ x.assemble l, i.Forward :=
  fun i hi => Instruction.forward_of_straight (x.straight l i hi)

theorem forward_concat {is : List Instruction} {i : Instruction} (h : ∀ j ∈ is, j.Forward)
    (hi : i.Forward) : ∀ j ∈ is ++ [i], j.Forward :=
  List.forall_mem_append.mpr ⟨h, List.forall_mem_singleton.mpr hi⟩

mutual
theorem Statement.forward : (s : Statement) → s.isLoopless = true → s.width < addressSpace →
    ∀ i ∈ s.assemble l, i.Forward
  | .declare _ x _, _, _ | .assign _ x _, _, _ | .discard x _, _, _ | .ret x _, _, _ =>
    forward_concat (x.forward l) (Instruction.forward_of_straight rfl)
  | .cond test yes none _, hs, h => by
    simp only [Statement.isLoopless] at hs
    simp only [Statement.width] at h
    have htest := forward_concat (test.forward l)
      (Instruction.forward_of_offset (i := .jumpIfFalse (.ofNat (Block.width yes + 1))) rfl
        (by omega))
    exact List.forall_mem_append.mpr ⟨htest, Block.forward yes hs (by omega)⟩
  | .cond test yes (some no) _, hs, h => by
    simp only [Statement.isLoopless, Bool.and_eq_true] at hs
    simp only [Statement.width] at h
    have htest := forward_concat (test.forward l)
      (Instruction.forward_of_offset (i := .jumpIfFalse (.ofNat (Block.width yes + 3))) rfl
        (by omega))
    have hyes := List.forall_mem_append.mpr ⟨htest, Block.forward yes hs.1 (by omega)⟩
    have hskip := forward_concat hyes
      (Instruction.forward_of_offset (i := .jump (.ofNat (Block.width no + 1))) rfl (by omega))
    exact List.forall_mem_append.mpr ⟨hskip, Block.forward no hs.2 (by omega)⟩
  | .loop _ _ _, hs, _ => by cases hs
theorem Block.forward : (b : Block) → Block.isLoopless b = true → Block.width b < addressSpace →
    ∀ i ∈ Block.assemble l b, i.Forward
  | [], _, _ => nofun
  | s :: rest, hs, h => by
    simp only [Block.isLoopless, Bool.and_eq_true] at hs
    rw [Block.width] at h
    exact List.forall_mem_append.mpr
      ⟨s.forward hs.1 (by omega), Block.forward rest hs.2 (by omega)⟩
end

/-- Without loops, every jump of a body leads forward, the one to the end of the stream too. -/
theorem Function.forward (target : String → Nat) {start stop : Nat} (f : Function)
    (hf : Block.isLoopless f.body = true) (hstop : stop < addressSpace)
    (hle : start + f.width ≤ stop) : ∀ i ∈ f.assemble target start stop, i.Forward := by
  rw [width] at hle
  have hbody := Block.forward ⟨f.names, target⟩ f.body hf (by omega)
  have hexit : stop - (start + 2 + Block.width f.body + 1) =
      stop - (start + 2 + Block.width f.body + 2) + 1 := by omega
  refine forward_concat (List.forall_mem_append.mpr ⟨?_, hbody⟩) ?_
  · exact List.forall_mem_singleton.mpr (Instruction.forward_of_straight rfl)
  · rw [exit, hexit]
    exact Instruction.forward_of_offset rfl (by omega)

end Forward

def Image.Forward (im : Image) : Prop :=
  ∀ b ∈ im.bodies, ∀ a i target n, im.Has b a i → i.jumpTarget a = some target →
    target.toIndex? = some n → a < n

namespace Program

variable {p : Program} {im : Image}

theorem isLoopless_of_mem {f : Function} (hp : p.isLoopless = true) (hf : f ∈ p.bodies) :
    Block.isLoopless f.body = true := by
  simp only [isLoopless, Bool.and_eq_true, List.all_eq_true] at hp
  obtain rfl | hf := List.mem_cons.mp hf
  · exact hp.2
  · exact hp.1 f hf

theorem forward_of_compile (hc : p.compile = .ok im) (hsize : im.code.size < addressSpace)
    (hp : p.isLoopless = true) : im.Forward := by
  intro b hb a i target n hi htarget hn
  have hbounds := (tiles_of_compile hc).bounds hb
  obtain ⟨f, hf, -, hfills⟩ := exists_fills hc hb
  have hwidth := hfills.width
  rw [Function.widthAll_assemble] at hwidth
  obtain ⟨before, after, heq, -⟩ := Instruction.mem_place.mp (hfills.has_iff.mp hi)
  have hforward := f.forward p.target (isLoopless_of_mem hp hf) hsize
    (Nat.le_trans (Nat.le_of_eq hwidth) hbounds.2.2) i
    (by rw [heq]; exact List.mem_append_right _ List.mem_cons_self)
  obtain ⟨offset, hoffset⟩ := Instruction.offset?_of_jumpTarget htarget
  obtain ⟨n', -, hle, hlands, htarget'⟩ := jumps_of_compile hc hsize hb hi hoffset
  rw [htarget'] at htarget
  cases htarget
  rw [Word.toIndex?_ofNat (Nat.lt_of_le_of_lt hle hsize)] at hn
  cases hn
  have hpos := hforward offset hoffset
  omega

end Program

/-- What is left of a stream of `size` words for the invocations at the given addresses, innermost
first. The digits of the number are the distances to the end, and the outermost one counts most. -/
def remaining (size limit : Nat) : List Nat → Nat
  | [] => 0
  | a :: rest => (size - a) * (size + 1) ^ (limit - rest.length) + remaining size limit rest

section Remaining

variable {size limit a n entry : Nat} {rest cs : List Nat}

theorem remaining_singleton_lt (size limit a : Nat) :
    remaining size limit [a] < (size + 1) ^ (limit + 1) :=
  calc remaining size limit [a] = (size - a) * (size + 1) ^ limit := rfl
    _ < (size + 1) * (size + 1) ^ limit :=
      Nat.mul_lt_mul_of_pos_right (by omega) (Nat.pow_pos (Nat.succ_pos size))
    _ = (size + 1) ^ (limit + 1) := (Nat.pow_succ').symm

theorem remaining_lt_of_lt (ha : a < size) (hn : a < n) :
    remaining size limit (n :: rest) < remaining size limit (a :: rest) :=
  Nat.add_lt_add_right
    (Nat.mul_lt_mul_of_pos_right (by omega) (Nat.pow_pos (Nat.succ_pos size))) _

/-- A callee has less before it than one word of its caller counts. -/
theorem remaining_call_lt (ha : a < size) (hn : a < n) (hroom : rest.length < limit) :
    remaining size limit (entry :: n :: rest) < remaining size limit (a :: rest) := by
  have hpow : (size + 1) ^ (limit - rest.length) =
      (size + 1) * (size + 1) ^ (limit - (rest.length + 1)) := by
    rw [← Nat.pow_succ']
    congr 1
    omega
  have hcallee : (size - entry) * (size + 1) ^ (limit - (rest.length + 1)) <
      (size + 1) ^ (limit - rest.length) := by
    rw [hpow]
    exact Nat.mul_lt_mul_of_pos_right (by omega) (Nat.pow_pos (Nat.succ_pos size))
  have hcaller : (size - n) * (size + 1) ^ (limit - rest.length) +
      (size + 1) ^ (limit - rest.length) ≤ (size - a) * (size + 1) ^ (limit - rest.length) := by
    rw [← Nat.succ_mul]
    exact Nat.mul_le_mul_right _ (by omega)
  simp only [remaining, List.length_cons]
  omega

theorem remaining_ret_lt (ha : a < size) :
    remaining size limit rest < remaining size limit (a :: rest) :=
  Nat.lt_add_of_pos_left (Nat.mul_pos (by omega) (Nat.pow_pos (Nat.succ_pos size)))

/-- Where instructions lead forward, less is left behind each of them. -/
theorem Instruction.Leads.remaining_lt {i : Instruction} (h : i.Leads a rest cs) (ha : a < size)
    (hforward : ∀ target n, i.jumpTarget a = some target → target.toIndex? = some n → a < n)
    (hdepth : cs.length ≤ limit + 1) :
    remaining size limit cs < remaining size limit (a :: rest) := by
  cases h with
  | next =>
    have hpos := i.width_pos
    exact remaining_lt_of_lt ha (by omega)
  | jump leads index => exact remaining_lt_of_lt ha (hforward _ _ leads index)
  | call =>
    simp only [List.length_cons] at hdepth
    exact remaining_call_lt ha (by omega) (by omega)
  | ret => exact remaining_ret_lt ha

end Remaining

namespace Image

variable {im : Image} {limit : Nat} {s t : State} {bs : List Body} {origin : Array Word}
  {bottom : Nat}

theorem Locates.remaining_lt (h : im.Locates s bs) (hforward : im.Forward)
    (hsize : im.code.size < addressSpace) (hdepth : t.callers.length ≤ limit)
    (hstep : Exec.step limit im.code s = .ok none t) :
    remaining im.code.size limit t.counters < remaining im.code.size limit s.counters := by
  obtain ⟨i, hdecode, hleads⟩ := Exec.step_leads hsize hstep
  have hlt : s.pc < im.code.size := by
    have hhead := (holds_of_decode hdecode).head
    exact (Array.getElem?_eq_some_iff.mp hhead).1
  obtain ⟨b, bs, hpc, -, rfl⟩ := List.forall₂_cons_left_iff.mp h.stands
  obtain hend | ⟨j, hj⟩ := hpc
  · omega
  · cases (decode_of_has hj).symm.trans hdecode
    refine hleads.remaining_lt hlt ?_ (by rw [t.length_counters]; omega)
    intro target n
    exact hforward b (h.bodies b List.mem_cons_self) s.pc i target n hj

/-- A run through bodies that lead forward ends before nothing is left. -/
theorem Locates.runFrom_ends (hseal : im.Sealed) (hforward : im.Forward)
    (hsize : im.code.size < addressSpace) {steps : Nat} (h : im.Locates s bs)
    (hs : s.Confined origin bottom []) (hdepth : s.depth ≤ limit)
    (hsteps : remaining im.code.size limit s.counters < steps) :
    ∃ o, Exec.runFrom limit im.code steps s = some o := by
  induction steps generalizing s bs with
  | zero => cases hsteps
  | succ steps ih =>
    cases hstep : Exec.step limit im.code s with
    | error f t => exact ⟨_, Exec.runFrom_of_error hstep⟩
    | ok answer t =>
      cases answer with
      | some w => exact ⟨_, Exec.runFrom_of_answer hstep⟩
      | none =>
        obtain ⟨bs', -, ht⟩ := h.step hseal hsize hstep
        have hconfined := Exec.step_keeps limit im.code s hs
        rw [hstep] at hconfined
        have hdepth' : t.depth ≤ limit := (Exec.Visits.here.next hstep).depth_le hs hdepth
        have hless := h.remaining_lt hforward hsize (hconfined.depth ▸ hdepth') hstep
        obtain ⟨o, ho⟩ := ih ht hconfined hdepth' (by omega)
        exact ⟨o, by rw [Exec.runFrom_of_moves hstep, ho]⟩

end Image

/-- A program without loops comes to an end under all limits and on every stack, however its
functions call each other. -/
theorem Program.loopless_terminates (p : Program) (im : Image) (hc : p.compile = .ok im)
    (hsize : im.code.size < addressSpace) (hp : p.isLoopless = true) (m : Machine) (base : Nat) :
    ∃ r m', ∀ steps, (im.code.size + 1) ^ (m.limits.callDepth + 1) ≤ steps →
      m.execute steps im.code im.entry base = some (r, m') := by
  by_cases hbase : base ≤ m.stack.size
  · obtain ⟨b, hlocates, -⟩ := start_locates hc hsize m base
    obtain ⟨o, hrun⟩ := hlocates.runFrom_ends (sealed_of_compile hc hsize)
      (forward_of_compile hc hsize hp) hsize (m.start_confined im.entry hbase) (Nat.zero_le _)
      (remaining_singleton_lt im.code.size m.limits.callDepth im.entry)
    refine ⟨o.result, Machine.after m.limits o.state, fun steps hle => ?_⟩
    rw [Machine.execute_of_le hbase, Exec.runFrom_mono hle hrun]
    rfl
  · refine ⟨.error (.stackOverflow m.stack.size), m, fun steps _ => ?_⟩
    rw [Machine.execute, if_pos (Nat.lt_of_not_le hbase)]

/-- A function that calls itself without end. -/
theorem Program.loopless_terminates_runaway :
    ∃ im, Sample.runaway.compile = .ok im ∧ im.code.size < addressSpace ∧
      Sample.runaway.isLoopless = true ∧
      ∃ r m', ∀ steps, (im.code.size + 1) ^ ((⟨12, 3⟩ : Limits).callDepth + 1) ≤ steps →
        (Machine.new ⟨12, 3⟩).execute steps im.code im.entry 0 = some (r, m') := by
  have hsize : Sample.runaway.emission.patched.size < addressSpace := by decide
  have hp : Sample.runaway.isLoopless = true := by decide
  exact ⟨_, rfl, hsize, hp, loopless_terminates Sample.runaway _ rfl hsize hp (.new ⟨12, 3⟩) 0⟩

end Wordcode
