import Wordcode.Proofs.Containment
import Wordcode.Proofs.Correctness
import Wordcode.Proofs.Correspondence

/-!
The order of functions, and functions that are never called, do not matter. Main statement: programs
that differ in these only have the same outcome in equally many steps.
-/

namespace Wordcode

inductive Instruction.Akin (fs : List Function) (target target' : String → Nat) :
    Instruction → Instruction → Prop where
  | same {i : Instruction} (stays : i.opcode ≠ .call) : Akin fs target target' i i
  | call {name : String} {f : Function} (argc : Word)
      (found : fs.find? (·.name == name) = some f) :
      Akin fs target target' (.call argc (.ofNat (target name)))
        (.call argc (.ofNat (target' name)))

section Trees

open List (Forall₂ rel_append)

variable {fs : List Function} {names : List String} {target target' : String → Nat}

theorem akin_single {i : Instruction} (h : i.opcode ≠ .call) :
    Forall₂ (Instruction.Akin fs target target') [i] [i] := .cons (.same h) .nil

mutual
theorem Operand.akin {declared : List String} : (x : Operand) → x.errors fs declared = [] →
    Forall₂ (Instruction.Akin fs target target') (x.assemble ⟨names, target⟩)
      (x.assemble ⟨names, target'⟩)
  | .int _, _ | .var _ _, _ => akin_single (by nofun)
  | .unary op x, he => rel_append (x.akin he) (akin_single (Opcode.unary_ne op rfl))
  | .chain first rest, he | .group first rest, he => by
    obtain ⟨hfirst, hrest⟩ := List.append_eq_nil_iff.mp he
    exact rel_append (first.akin hfirst) (Links.akin rest hrest)
  | .call name args _, he => by
    obtain ⟨hargs, hcall⟩ := List.append_eq_nil_iff.mp he
    obtain ⟨f, hf, -⟩ := callErrors_eq_nil.mp hcall
    exact rel_append (Operand.akinAll args hargs) (.cons (.call _ hf) .nil)
theorem Links.akin {declared : List String} : (rest : Links) →
    Links.errors fs declared rest = [] →
    Forall₂ (Instruction.Akin fs target target') (Links.assemble ⟨names, target⟩ rest)
      (Links.assemble ⟨names, target'⟩ rest)
  | [], _ => .nil
  | (op, x) :: rest, he => by
    obtain ⟨hx, hrest⟩ := List.append_eq_nil_iff.mp he
    refine rel_append (rel_append (x.akin hx) ?_) (Links.akin rest hrest)
    exact akin_single (Opcode.binary_ne op rfl)
theorem Operand.akinAll {declared : List String} : (xs : List Operand) →
    Operand.errorsAll fs declared xs = [] →
    Forall₂ (Instruction.Akin fs target target') (Operand.assembleAll ⟨names, target⟩ xs)
      (Operand.assembleAll ⟨names, target'⟩ xs)
  | [], _ => .nil
  | x :: rest, he => by
    obtain ⟨hx, hrest⟩ := List.append_eq_nil_iff.mp he
    exact rel_append (x.akin hx) (Operand.akinAll rest hrest)
end

mutual
theorem Statement.akin : (s : Statement) → (declared : List String) →
    s.errors fs declared = [] →
    Forall₂ (Instruction.Akin fs target target') (s.assemble ⟨names, target⟩)
      (s.assemble ⟨names, target'⟩)
  | .declare _ x _, _, he =>
    rel_append (x.akin (List.append_eq_nil_iff.mp he).2) (akin_single (by nofun))
  | .assign _ x _, _, he =>
    rel_append (x.akin (List.append_eq_nil_iff.mp he).1) (akin_single (by nofun))
  | .discard x _, _, he | .ret x _, _, he => rel_append (x.akin he) (akin_single (by nofun))
  | .cond test yes none _, _, he => by
    obtain ⟨htest, hyes⟩ := List.append_eq_nil_iff.mp he
    exact rel_append (rel_append (test.akin htest) (akin_single (by nofun))) (Block.akin yes _ hyes)
  | .cond test yes (some no) _, _, he => by
    obtain ⟨hfirst, hno⟩ := List.append_eq_nil_iff.mp he
    obtain ⟨htest, hyes⟩ := List.append_eq_nil_iff.mp hfirst
    exact rel_append (rel_append (rel_append (rel_append (test.akin htest) (akin_single (by nofun)))
      (Block.akin yes _ hyes)) (akin_single (by nofun))) (Block.akin no _ hno)
  | .loop test body _, _, he => by
    obtain ⟨htest, hbody⟩ := List.append_eq_nil_iff.mp he
    exact rel_append (rel_append (rel_append (test.akin htest) (akin_single (by nofun)))
      (Block.akin body _ hbody)) (akin_single (by nofun))
theorem Block.akin : (b : Block) → (declared : List String) →
    Block.errors fs declared b = [] →
    Forall₂ (Instruction.Akin fs target target') (Block.assemble ⟨names, target⟩ b)
      (Block.assemble ⟨names, target'⟩ b)
  | [], _, _ => .nil
  | s :: rest, _, he => by
    obtain ⟨hs, hrest⟩ := List.append_eq_nil_iff.mp he
    exact rel_append (s.akin _ hs) (Block.akin rest _ hrest)
end

end Trees

section Bodies

open Instruction (place)

variable {fs : List Function} {target target' : String → Nat} {start start' stop stop' a a' : Nat}
  {i i' : Instruction}

theorem Instruction.Akin.width (h : i.Akin fs target target' i') : i'.width = i.width := by
  cases h <;> rfl

/-- Instructions at the same distance from the start of the code. -/
theorem akin_of_place {is is' : List Instruction}
    (h : List.Forall₂ (Instruction.Akin fs target target') is is')
    (hi : (a, i) ∈ place start is) (hi' : (a', i') ∈ place start' is')
    (heq : a + start' = a' + start) : i.Akin fs target target' i' := by
  induction h generalizing start start' with
  | nil => cases hi
  | @cons j j' is is' hj _ ih =>
    have hwidth := hj.width
    have hpos := j.width_pos
    rcases List.mem_cons.mp hi with hhead | htail
    · cases hhead
      rcases List.mem_cons.mp hi' with hhead' | htail'
      · cases hhead'
        exact hj
      · have hle := (Instruction.place_le htail').1
        omega
    · rcases List.mem_cons.mp hi' with hhead' | htail'
      · cases hhead'
        have hle := (Instruction.place_le htail).1
        omega
      · exact ih htail htail' (by omega)

/-- In the code of a body only the last jump is no akin instruction. -/
theorem Function.akin {f : Function} (he : f.errors fs = [])
    (hi : (a, i) ∈ place start (f.assemble target start stop))
    (hi' : (a', i') ∈ place start' (f.assemble target' start' stop'))
    (heq : a + start' = a' + start) :
    i.Akin fs target target' i' ∨
      (a, i) = (start + 2 + Block.width f.body, f.exit start stop) ∧
        (a', i') = (start' + 2 + Block.width f.body, f.exit start' stop') := by
  have hbody := (List.append_eq_nil_iff.mp he).2
  have hfront : List.Forall₂ (Instruction.Akin fs target target')
      ([.stackAdjust (.ofNat f.names.length)] ++ Block.assemble ⟨f.names, target⟩ f.body)
      ([.stackAdjust (.ofNat f.names.length)] ++ Block.assemble ⟨f.names, target'⟩ f.body) :=
    List.rel_append (akin_single (by nofun)) (Block.akin f.body _ hbody)
  have hwidth : ∀ t, Instruction.widthAll ([Instruction.stackAdjust (.ofNat f.names.length)]
      ++ Block.assemble ⟨f.names, t⟩ f.body) = 2 + Block.width f.body := by
    intro t
    rw [Instruction.widthAll_append, Block.widthAll_assemble]
    rfl
  rw [Function.assemble, Instruction.place_append, hwidth, ← Nat.add_assoc] at hi hi'
  rcases List.mem_append.mp hi with hin | hlast
  · have hle := Instruction.place_le hin
    have hpos := i.width_pos
    rw [hwidth] at hle
    rcases List.mem_append.mp hi' with hin' | hlast'
    · exact Or.inl (akin_of_place hfront hin hin' heq)
    · cases List.mem_singleton.mp hlast'
      omega
  · rcases List.mem_append.mp hi' with hin' | hlast'
    · have hle := Instruction.place_le hin'
      have hpos := i'.width_pos
      rw [hwidth] at hle
      cases List.mem_singleton.mp hlast
      omega
    · exact Or.inr ⟨List.mem_singleton.mp hlast, List.mem_singleton.mp hlast'⟩

end Bodies

/-- In a list without a repeated name each function is the first of its name. -/
theorem find?_of_functionErrors {earlier : List String} {fs : List Function} {f : Function}
    (h : functionErrors earlier fs = []) (hf : f ∈ fs) :
    fs.find? (·.name == f.name) = some f ∧ f.name ∉ earlier := by
  induction fs generalizing earlier with
  | nil => cases hf
  | cons g fs ih =>
    obtain ⟨hg, hrest⟩ := List.append_eq_nil_iff.mp h
    rcases List.mem_cons.mp hf with rfl | hf
    · refine ⟨List.find?_cons_of_pos (beq_self_eq_true _), fun hmem => ?_⟩
      rw [if_pos hmem] at hg
      cases hg
    · obtain ⟨hfind, hfresh⟩ := ih hrest hf
      have hne : g.name ≠ f.name := fun heq => hfresh (by simp [heq])
      refine ⟨?_, fun hmem => hfresh (List.mem_append_left _ hmem)⟩
      rw [List.find?_cons_of_neg (by simpa using hne)]
      exact hfind

namespace Program

/-- The ends of both streams, or addresses of instructions in the code of one tree, at the same
distance from its start. -/
def Aligned (p q : Program) (im im' : Image) (a a' : Nat) : Prop :=
  (a = im.code.size ∧ a' = im'.code.size) ∨
    ∃ k k' f, p.bodies[k]? = some f ∧ q.bodies[k']? = some f ∧ a + q.start k' = a' + p.start k ∧
      (∃ i, im.Has (f.placed (p.start k)) a i) ∧ ∃ i, im'.Has (f.placed (q.start k')) a' i

section Alignment

variable {p q : Program} {im im' : Image} {k k' a a' : Nat} {f : Function} {i i' : Instruction}

/-- In a program that is accepted each function is found by its name. -/
theorem find?_of_mem (he : p.errors = []) (hf : f ∈ p.functions) :
    p.functions.find? (·.name == f.name) = some f :=
  (find?_of_functionErrors (List.append_eq_nil_iff.mp he).1 hf).1

theorem lt_stop_of_compile {b : Body} (hc : p.compile = .ok im) (hb : b ∈ im.bodies)
    (hi : im.Has b a i) : a < b.stop :=
  Nat.lt_of_lt_of_le (Nat.lt_add_of_pos_right i.width_pos) (inside_of_compile hc hb hi).2

variable (hc : p.compile = .ok im) (hsize : im.code.size < addressSpace)
  (hc' : q.compile = .ok im') (hsize' : im'.code.size < addressSpace)

include hc hsize hc' hsize'

/-- The starts of the code of one tree. -/
theorem aligned_start (hf : p.bodies[k]? = some f) (hf' : q.bodies[k']? = some f) :
    Aligned p q im im' (p.start k) (q.start k') :=
  Or.inr ⟨k, k', f, hf, hf', Nat.add_comm _ _, first_of_compile hc hsize (placed_mem_bodies hc hf),
    first_of_compile hc' hsize' (placed_mem_bodies hc' hf')⟩

section Body

variable (hf : p.bodies[k]? = some f) (hf' : q.bodies[k']? = some f)
  (heq : a + q.start k' = a' + p.start k) (hi : im.Has (f.placed (p.start k)) a i)
  (hi' : im'.Has (f.placed (q.start k')) a' i')

include hf hf' heq hi hi'

theorem aligned_next (hfalls : ∀ offset, i ≠ .jump offset) (hfalls' : ∀ offset, i' ≠ .jump offset)
    (hwidth : i'.width = i.width) : Aligned p q im im' (a + i.width) (a' + i.width) := by
  have hnext := next_of_compile hc hsize (placed_mem_bodies hc hf) hi
  have hnext' := next_of_compile hc' hsize' (placed_mem_bodies hc' hf') hi'
  rw [hwidth] at hnext'
  refine Or.inr ⟨k, k', f, hf, hf', by omega, ?_, ?_⟩
  · exact hnext.resolve_left fun ⟨offset, hjump⟩ => hfalls offset hjump
  · exact hnext'.resolve_left fun ⟨offset, hjump⟩ => hfalls' offset hjump

/-- Jumps by the same offset lead to aligned addresses. -/
theorem aligned_jump {offset : Word} (hoffset : i.offset? = some offset)
    (hoffset' : i'.offset? = some offset) :
    ∃ n n', Hits im.code (i.jumpTarget a) n ∧ Hits im'.code (i'.jumpTarget a') n' ∧
      Aligned p q im im' n n' := by
  have hbody := placed_mem_bodies hc hf
  have hbody' := placed_mem_bodies hc' hf'
  obtain ⟨n, hn, hle, hlands, htarget⟩ := jumps_of_compile hc hsize hbody hi hoffset
  obtain ⟨n', hn', hle', hlands', htarget'⟩ := jumps_of_compile hc' hsize' hbody' hi' hoffset'
  refine ⟨n, n', ⟨_, htarget, Word.toIndex?_ofNat (by omega), hle⟩,
    ⟨_, htarget', Word.toIndex?_ofNat (by omega), hle'⟩, ?_⟩
  -- A jump leaves the code of the tree in both streams or in neither.
  have hstop : p.start k + f.width ≤ im.code.size := ((tiles_of_compile hc).bounds hbody).2.2
  have hstop' : q.start k' + f.width ≤ im'.code.size := ((tiles_of_compile hc').bounds hbody').2.2
  rcases hn with hend | ⟨j, hj⟩
  · rcases hn' with hend' | ⟨j', hj'⟩
    · exact Or.inl ⟨hend, hend'⟩
    · have hlt : n' < q.start k' + f.width := lt_stop_of_compile hc' hbody' hj'
      omega
  · have hlt : n < p.start k + f.width := lt_stop_of_compile hc hbody hj
    rcases hn' with hend' | hj'
    · omega
    · exact Or.inr ⟨k, k', f, hf, hf', by omega, ⟨j, hj⟩, hj'⟩

/-- At aligned addresses of a tree stand instructions that do the same. -/
theorem pairs_of_aligned (hfunctions : ∀ g ∈ p.functions, g ∈ q.functions) :
    i.Pairs im.code im'.code (Aligned p q im im') a a' i' := by
  have he := errors_body (compile_eq_ok hc).1 (List.mem_of_getElem? hf)
  have hplace := (fills_placed hc hf).has_iff.mp hi
  have hplace' := (fills_placed hc' hf').has_iff.mp hi'
  rcases Function.akin he hplace hplace' heq with hakin | ⟨hlast, hlast'⟩
  · cases hakin with
    | same stays =>
      cases hoffset : i.offset? with
      | none =>
        have hfalls : ∀ offset, i ≠ .jump offset := by
          rintro offset rfl
          cases hoffset
        exact .plain hoffset stays
          (aligned_next hc hsize hc' hsize' hf hf' heq hi hi' hfalls hfalls rfl)
      | some offset =>
        obtain ⟨n, n', hits, hits', haligned⟩ :=
          aligned_jump hc hsize hc' hsize' hf hf' heq hi hi' hoffset hoffset
        cases i with
        | jump => exact .jump hits hits' haligned
        | jumpIfFalse =>
          exact .jumpIfFalse hits hits' haligned
            (aligned_next hc hsize hc' hsize' hf hf' heq hi hi' nofun nofun rfl)
        | _ => cases hoffset
    | @call name g argc found =>
      -- The name stands for the same tree in both programs.
      have hname : g.name = name := by simpa using List.find?_some found
      have hmem := hfunctions g (List.mem_of_find?_eq_some found)
      have found' := find?_of_mem (compile_eq_ok hc').1 hmem
      rw [hname] at found'
      obtain ⟨j, htarget, hj⟩ := target_eq_start found
      obtain ⟨j', htarget', hj'⟩ := target_eq_start found'
      have hbounds := (tiles_of_compile hc).bounds (placed_mem_bodies hc hj)
      have hbounds' := (tiles_of_compile hc').bounds (placed_mem_bodies hc' hj')
      have hstart : p.start j < im.code.size := Nat.lt_of_lt_of_le hbounds.2.1 hbounds.2.2
      have hstart' : q.start j' < im'.code.size := Nat.lt_of_lt_of_le hbounds'.2.1 hbounds'.2.2
      refine .call argc ?_ ?_ hstart hstart' (aligned_start hc hsize hc' hsize' hj hj')
        (aligned_next hc hsize hc' hsize' hf hf' heq hi hi' nofun nofun rfl)
      · rw [htarget]
        exact Word.toIndex?_ofNat (Nat.lt_trans hstart hsize)
      · rw [htarget']
        exact Word.toIndex?_ofNat (Nat.lt_trans hstart' hsize')
  · cases hlast
    cases hlast'
    have hstop := ((tiles_of_compile hc).bounds (placed_mem_bodies hc hf)).2.2
    have hstop' := ((tiles_of_compile hc').bounds (placed_mem_bodies hc' hf')).2.2
    exact .jump ⟨_, f.jumpTarget_exit hsize hstop, Word.toIndex?_ofNat hsize, Nat.le_refl _⟩
      ⟨_, f.jumpTarget_exit hsize' hstop', Word.toIndex?_ofNat hsize', Nat.le_refl _⟩
      (Or.inl ⟨rfl, rfl⟩)

end Body

theorem corresponding_of_compile (hfunctions : ∀ g ∈ p.functions, g ∈ q.functions) :
    Corresponding im.code im'.code (Aligned p q im im') := by
  rintro a a' (hends | ⟨k, k', f, hf, hf', heq, ⟨i, hi⟩, ⟨i', hi'⟩⟩)
  · exact Or.inl hends
  · exact Or.inr ⟨i, i', Image.decode_of_has hi, Image.decode_of_has hi',
      pairs_of_aligned hc hsize hc' hsize' hf hf' heq hi hi' hfunctions⟩

end Alignment

end Program

def Failure.placeless : Failure → Failure
  | .faulted f => .faulted (f.located 0)
  | e => e

namespace Program

/-- Neither the order of the functions nor further functions show in the outcome of a run: it is the
same value, or the same failure up to the address of the fault, after the same number of steps. -/
theorem run_reordered (p q : Program) (im im' : Image) (hc : p.compile = .ok im)
    (hc' : q.compile = .ok im') (hsize : im.code.size < addressSpace)
    (hsize' : im'.code.size < addressSpace) (hmain : q.main = p.main)
    (hfunctions : ∀ f ∈ p.functions, f ∈ q.functions) (limits : Limits)
    (hv : limits.validate = .ok limits) (steps : Nat) :
    (p.run limits steps).map (·.mapError Failure.placeless) =
      (q.run limits steps).map (·.mapError Failure.placeless) := by
  have hf : p.bodies[0]? = some p.mainFunction := rfl
  have hf' : q.bodies[0]? = some p.mainFunction := by
    rw [bodies, mainFunction, hmain]
    rfl
  have hm : ((Machine.new limits).start 0 0).Matches (Aligned p q im im')
      ((Machine.new limits).start 0 0) :=
    ⟨rfl, rfl, rfl, rfl, aligned_start hc hsize hc' hsize' hf hf', .nil⟩
  have hruns := Exec.runFrom_paired (corresponding_of_compile hc hsize hc' hsize' hfunctions) hsize
    hsize' hm limits.maxCallDepth steps
  have hplaceless : ∀ r : Except Fault Word,
      (r.mapError Failure.faulted).mapError Failure.placeless =
        (r.mapError (Fault.located 0)).mapError Failure.faulted := by
    rintro (f | w) <;> rfl
  rw [run_eq_runFrom hc hv, run_eq_runFrom hc' hv, Option.map_map, Option.map_map]
  simp only [Function.comp_def, hplaceless]
  have hfaulted := congrArg (Option.map (Except.mapError Failure.faulted)) hruns
  rw [Option.map_map, Option.map_map] at hfaulted
  exact hfaulted

end Program

def Sample.mutualRecursionReordered : Program :=
  { Sample.mutualRecursion with
    functions := [fact, parity "is_odd" "is_even" 0, parity "is_even" "is_odd" 1] }

/-- Calls nest until the stack is full, in either order of the functions. -/
theorem Program.run_reordered_parity :
    ∃ im im', Sample.mutualRecursion.compile = .ok im ∧
      Sample.mutualRecursionReordered.compile = .ok im' ∧ im.code.size < addressSpace ∧
      im'.code.size < addressSpace ∧
      Sample.mutualRecursionReordered.main = Sample.mutualRecursion.main ∧
      (∀ f ∈ Sample.mutualRecursion.functions, f ∈ Sample.mutualRecursionReordered.functions) ∧
      (⟨8, 512⟩ : Limits).validate = .ok ⟨8, 512⟩ ∧
      Sample.mutualRecursion.run ⟨8, 512⟩ 200 = some (.error (.faulted (.stackOverflow 8))) ∧
      (Sample.mutualRecursion.run ⟨8, 512⟩ 200).map (·.mapError Failure.placeless) =
        (Sample.mutualRecursionReordered.run ⟨8, 512⟩ 200).map (·.mapError Failure.placeless) := by
  have hsize : Sample.mutualRecursion.emission.patched.size < addressSpace := by decide
  have hsize' : Sample.mutualRecursionReordered.emission.patched.size < addressSpace := by decide
  have hfunctions : ∀ f ∈ Sample.mutualRecursion.functions,
      f ∈ Sample.mutualRecursionReordered.functions := by
    simp [Sample.mutualRecursion, Sample.mutualRecursionReordered]
  exact ⟨_, _, rfl, rfl, hsize, hsize', rfl, hfunctions, rfl, rfl,
    run_reordered Sample.mutualRecursion Sample.mutualRecursionReordered _ _ rfl rfl hsize hsize'
      rfl hfunctions ⟨8, 512⟩ rfl 200⟩

end Wordcode
