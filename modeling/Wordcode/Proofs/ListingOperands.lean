import Mathlib.Data.List.Nodup
import Wordcode.Code.Image
import Wordcode.Proofs.ListingLines
import Wordcode.Proofs.Sweep

/-!
The operands of a listing. Names stand for slots and for bodies, and addresses for offsets; each of
these can be undone where names do not repeat and jumps lead somewhere.
-/

namespace Wordcode

section References

/-- The text of a word that may stand for a name: the name, or the word itself with a mark. -/
theorem reference_inj {f : Word → Option String} {v w : Word}
    (hf : ∀ v w name, f v = some name → f w = some name → v = w)
    (hname : ∀ v name, f v = some name → name.toList.head? ≠ some '@')
    (h : (f v).getD ("@" ++ v.text) = (f w).getD ("@" ++ w.text)) : v = w := by
  have hmark : ∀ (v w : Word) (name : String), f v = some name → name ≠ "@" ++ w.text := by
    rintro v w _ hv rfl
    exact hname v _ hv (by simp)
  cases hv : f v with
  | none =>
    cases hw : f w with
    | none =>
      rw [hv, hw, Option.getD_none, Option.getD_none] at h
      exact Word.text_inj ((String.append_right_inj _).mp h)
    | some name =>
      rw [hv, hw] at h
      exact absurd h.symm (hmark w v name hw)
  | some name =>
    cases hw : f w with
    | none =>
      rw [hv, hw] at h
      exact absurd h (hmark v w name hv)
    | some name' =>
      rw [hv, hw] at h
      cases (h : name = name')
      exact hf v w name hv hw

theorem Word.text_ne_end (w : Word) : w.text ≠ "end" := by
  intro h
  have hlist : w.text.toList = ['e', 'n', 'd'] := by simp [h]
  by_cases hw : 0 ≤ w.toInt
  · obtain ⟨c, cs, hcs, hc⟩ := exists_toDigits w.toInt.toNat
    rw [toList_text_of_nonneg hw, hcs] at hlist
    cases hlist
    simp at hc
  · simp [toList_text_of_neg (Int.not_le.mp hw)] at hlist

theorem Word.eq_of_toIndex? {v w : Word} {n : Nat} (hv : v.toIndex? = some n)
    (hw : w.toIndex? = some n) : v = w := by
  rw [toIndex?_eq_some_iff] at hv hw
  exact Int64.toInt_inj.mp (hv.trans hw.symm)

end References

structure Named (bodies : List Body) : Prop where
  names : ∀ b ∈ bodies, isBodyName b.name = true
  distinct : (bodies.map Body.name).Nodup
  locals : ∀ b ∈ bodies, Spelled b.locals
  distinctLocals : ∀ b ∈ bodies, b.locals.Nodup

namespace Image

variable {im im' : Image} {b b' : Body} {a a' : Nat} {i j : Instruction}

def slotName (b : Body) (slot : Word) : Option String := slot.toIndex?.bind (b.locals[·]?)

def calleeName (im : Image) (target : Word) : Option String :=
  (target.toIndex?.bind im.bodyAt?).map (·.name)

theorem slotName_inj (hb : b.locals.Nodup) (v w : Word) (name : String)
    (hv : slotName b v = some name) (hw : slotName b w = some name) : v = w := by
  obtain ⟨m, hm, hname⟩ := Option.bind_eq_some_iff.mp hv
  obtain ⟨n, hn, hname'⟩ := Option.bind_eq_some_iff.mp hw
  obtain ⟨hlt, -⟩ := List.getElem?_eq_some_iff.mp hname
  obtain rfl : m = n := (List.getElem?_inj hlt hb).mp (hname.trans hname'.symm)
  exact Word.eq_of_toIndex? hm hn

theorem isIdentifier_slotName (hb : Spelled b.locals) (v : Word) (name : String)
    (hv : slotName b v = some name) : isIdentifier name = true := by
  obtain ⟨m, -, hname⟩ := Option.bind_eq_some_iff.mp hv
  exact hb name (List.mem_of_getElem? hname)

theorem exists_callee {target : Word} {name : String} (h : im.calleeName target = some name) :
    ∃ b ∈ im.bodies, target.toIndex? = some b.start ∧ b.name = name := by
  obtain ⟨b, hbody, rfl⟩ := Option.map_eq_some_iff.mp h
  obtain ⟨n, hn, hfind⟩ := Option.bind_eq_some_iff.mp hbody
  have hstart : b.start = n := by simpa using List.find?_some hfind
  exact ⟨b, List.mem_of_find?_eq_some hfind, by rw [hn, hstart], rfl⟩

theorem calleeName_inj (him : Named im.bodies) (v w : Word) (name : String)
    (hv : im.calleeName v = some name) (hw : im.calleeName w = some name) : v = w := by
  obtain ⟨b, hb, hstart, rfl⟩ := exists_callee hv
  obtain ⟨b', hb', hstart', hname⟩ := exists_callee hw
  obtain rfl := List.inj_on_of_nodup_map him.distinct hb' hb hname
  exact Word.eq_of_toIndex? hstart hstart'

theorem isBodyName_calleeName (him : Named im.bodies) (v : Word) (name : String)
    (hv : im.calleeName v = some name) : isBodyName name = true := by
  obtain ⟨b, hb, -, rfl⟩ := exists_callee hv
  exact him.names b hb

theorem notMem_callee (him : Named im.bodies) (target : Word) {c : Char}
    (hc : isBodyNameChar c = false) (hat : c ≠ '@') (hminus : c ≠ '-') :
    c ∉ ((im.calleeName target).getD ("@" ++ target.text)).toList := by
  cases hname : im.calleeName target with
  | none =>
    have htext : c ∉ target.text.toList :=
      notMem_of_all (by simp_all [isBodyNameChar]) target.all_text
    simp [hat, htext]
  | some name => exact notMem_of_all hc (all_of_isBodyName (isBodyName_calleeName him _ _ hname))

theorem solid_reference {name : Option String} (w : Word)
    (h : ∀ n ∈ name, isIdentifier n = true) : Solid (name.getD ("@" ++ w.text)).toList := by
  cases name with
  | none =>
    rw [Option.getD_none, String.toList_append]
    exact solid_append (by decide) w.solid_text w.text_ne_nil
  | some n => exact solid_of_all (all_of_isIdentifier (h n rfl))

theorem operandText_call (im : Image) (b : Body) (a : Nat) (argc target : Word) :
    im.operandText b a (.call argc target) =
      (im.calleeName target).getD ("@" ++ target.text) ++ ", " ++ argc.text := rfl

def targetText (size : Nat) : Option Word → String
  | some target => if target == .ofNat size then "end" else target.text
  | none => ""

theorem operandText_jump (im : Image) (b : Body) (a : Nat) {offset : Word}
    (h : i.offset? = some offset) :
    im.operandText b a i = targetText im.code.size (i.jumpTarget a) := by
  cases i with
  | jump w | jumpIfFalse w => rfl
  | _ => cases h

theorem solid_targetText (size : Nat) (target : Option Word) :
    Solid (targetText size target).toList := by
  cases target with
  | none => exact solid_of_all rfl
  | some target =>
    rw [targetText]
    split
    · exact solid_of_all (by decide)
    · exact target.solid_text

theorem solid_operandText (him : Named im.bodies) (hb : b ∈ im.bodies) (a : Nat)
    (i : Instruction) : Solid (im.operandText b a i).toList := by
  cases i with
  | load slot | store slot =>
    exact solid_reference slot (isIdentifier_slotName (him.locals b hb) slot)
  | int w | stackAdjust w => exact w.solid_text
  | jump offset | jumpIfFalse offset =>
    rw [operandText_jump im b a rfl]
    exact solid_targetText _ _
  | call argc target =>
    have hname := notMem_callee him target (by decide : isBodyNameChar '\n' = false) (by decide)
      (by decide)
    rw [operandText_call, String.toList_append, String.toList_append]
    exact solid_append (by simpa using hname) argc.solid_text argc.text_ne_nil
  | unary op | binary op | ret | pop => exact solid_of_all rfl

theorem columned_operandText (im : Image) (b : Body) (a : Nat) (i : Instruction) :
    i.opcode.Columned (im.operandText b a i).toList := by
  intro hne
  cases i with
  | unary op | binary op | ret | pop => exact absurd rfl hne
  | _ =>
    rw [Instruction.opcode]
    decide

/-- The line of an instruction shows its operand, whatever image the line is from. -/
theorem instructionLine_inj (him : Named im.bodies) (him' : Named im'.bodies)
    (hb : b ∈ im.bodies) (hb' : b' ∈ im'.bodies)
    (heq : im.instructionLine b a i = im'.instructionLine b' a' j) :
    a = a' ∧ i.opcode = j.opcode ∧ im.operandText b a i = im'.operandText b' a' j := by
  rw [← String.toList_inj, toList_instructionLine (solid_operandText him hb a i),
    toList_instructionLine (solid_operandText him' hb' a' j)] at heq
  obtain ⟨haddress, hop, htext⟩ :=
    lineText_inj (columned_operandText im b a i) (columned_operandText im' b' a' j) heq
  exact ⟨haddress, hop, String.toList_inj.mp htext⟩

theorem operandText_congr (hbodies : im.bodies = im'.bodies) (hsize : im.code.size = im'.code.size)
    (b : Body) (a : Nat) (i : Instruction) : im.operandText b a i = im'.operandText b a i := by
  have hat : im.bodyAt? = im'.bodyAt? := by
    funext address
    rw [bodyAt?, bodyAt?, hbodies]
  unfold operandText
  rw [hat, hsize]

theorem targetText_inj {size : Nat} {v w : Word}
    (h : targetText size (some v) = targetText size (some w)) : v = w := by
  rw [targetText, targetText] at h
  split at h
  next hv =>
    split at h
    next hw => exact (eq_of_beq hv).trans (eq_of_beq hw).symm
    next => exact absurd h.symm w.text_ne_end
  next =>
    split at h
    next => exact absurd h v.text_ne_end
    next => exact Word.text_inj h

theorem offset_inj {v w target : Word} (hi : i.offset? = some v) (hj : j.offset? = some w)
    (ht : i.jumpTarget a = some target) (ht' : j.jumpTarget a = some target) : v = w := by
  have heq : ∀ (i : Instruction) (v : Word), i.offset? = some v →
      i.jumpTarget a = (Word.add? (.ofNat a) 1).bind (Word.add? · v) := by
    intro i v hi
    cases i with
    | jump offset | jumpIfFalse offset =>
      cases hi
      rfl
    | _ => cases hi
  rw [heq i v hi] at ht
  rw [heq j w hj] at ht'
  obtain ⟨u, hu, hv⟩ := Option.bind_eq_some_iff.mp ht
  obtain ⟨u', hu', hw⟩ := Option.bind_eq_some_iff.mp ht'
  obtain rfl : u = u' := Option.some.inj (hu.symm.trans hu')
  rw [Word.add?_eq_some_iff] at hv hw
  exact Int64.toInt_inj.mp (by omega)

theorem slot_inj (hb : Spelled b.locals) (hnodup : b.locals.Nodup) {v w : Word}
    (h : (slotName b v).getD ("@" ++ v.text) = (slotName b w).getD ("@" ++ w.text)) : v = w := by
  refine reference_inj (slotName_inj hnodup) (fun v name hv => ?_) h
  obtain ⟨c, rest, hcons, hc, -⟩ := exists_of_isIdentifier (isIdentifier_slotName hb v name hv)
  simpa [hcons] using ne_of_class hc (by decide)

theorem call_inj (him : Named im.bodies) {argc argc' target target' : Word}
    (h : im.operandText b a (.call argc target) = im.operandText b a (.call argc' target')) :
    argc = argc' ∧ target = target' := by
  have hcomma : ∀ target, ',' ∉ ((im.calleeName target).getD ("@" ++ target.text)).toList :=
    fun target => notMem_callee him target (by decide) (by decide) (by decide)
  rw [operandText_call, operandText_call, ← String.toList_inj] at h
  simp only [String.toList_append, List.append_assoc] at h
  obtain ⟨hname, hargc⟩ := append_inj_of_notMem (hcomma target) (hcomma target') h
  refine ⟨Word.text_inj (String.toList_inj.mp (List.cons.inj hargc).2), ?_⟩
  refine reference_inj (calleeName_inj him) (fun v name hv => ?_) (String.toList_inj.mp hname)
  obtain ⟨c, rest, hcons, hc⟩ := isBodyName_begins (isBodyName_calleeName him v name hv)
  rw [hcons]
  rintro heq
  cases heq
  simp [isNameStart] at hc

/-- The operand of an instruction can be told from its text. -/
theorem operandText_inj (him : Named im.bodies) (hb : b ∈ im.bodies)
    (hop : i.opcode = j.opcode)
    (hi : ∀ offset, i.offset? = some offset → ∃ target, i.jumpTarget a = some target)
    (hj : ∀ offset, j.offset? = some offset → ∃ target, j.jumpTarget a = some target)
    (h : im.operandText b a i = im.operandText b a j) : i = j := by
  have hjump : ∀ v w, i.offset? = some v → j.offset? = some w → v = w := by
    intro v w hv hw
    obtain ⟨t, ht⟩ := hi v hv
    obtain ⟨t', ht'⟩ := hj w hw
    rw [operandText_jump im b a hv, operandText_jump im b a hw, ht, ht'] at h
    obtain rfl := targetText_inj h
    exact offset_inj hv hw ht ht'
  have hback : ∀ op, i.opcode = op →
      ∃ immediate, Instruction.ofOpcode op immediate = j := by
    rintro _ rfl
    rw [hop]
    exact j.exists_ofOpcode
  cases i with
  | unary op =>
    obtain ⟨immediate, rfl⟩ := hback _ rfl
    exact (Instruction.ofOpcode_unary op immediate).symm
  | binary op =>
    obtain ⟨immediate, rfl⟩ := hback _ rfl
    exact (Instruction.ofOpcode_binary op immediate).symm
  | load v =>
    obtain ⟨immediate, rfl⟩ := hback .load rfl
    exact congrArg Instruction.load (slot_inj (him.locals b hb) (him.distinctLocals b hb) h)
  | store v =>
    obtain ⟨immediate, rfl⟩ := hback .store rfl
    exact congrArg Instruction.store (slot_inj (him.locals b hb) (him.distinctLocals b hb) h)
  | int v =>
    obtain ⟨immediate, rfl⟩ := hback .int rfl
    exact congrArg Instruction.int (Word.text_inj h)
  | stackAdjust v =>
    obtain ⟨immediate, rfl⟩ := hback .stackAdjust rfl
    exact congrArg Instruction.stackAdjust (Word.text_inj h)
  | jump v =>
    obtain ⟨immediate, rfl⟩ := hback .jump rfl
    exact congrArg Instruction.jump (hjump v _ rfl rfl)
  | jumpIfFalse v =>
    obtain ⟨immediate, rfl⟩ := hback .jumpIfFalse rfl
    exact congrArg Instruction.jumpIfFalse (hjump v _ rfl rfl)
  | call argc target =>
    obtain ⟨immediate, rfl⟩ := hback .call rfl
    obtain ⟨hargc, htarget⟩ := call_inj him h
    exact congr (congrArg Instruction.call hargc) htarget
  | ret =>
    obtain ⟨immediate, rfl⟩ := hback .ret rfl
    rfl
  | pop =>
    obtain ⟨immediate, rfl⟩ := hback .pop rfl
    rfl

end Image

end Wordcode
