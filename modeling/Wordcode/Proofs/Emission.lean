import Wordcode.Proofs.Layout
import Wordcode.Sample

/-!
Emission with patches against the direct layout. A piece of lowering adds words to the finished
stream, whose pending words are filled in as a later emitter `fin` knows them.
-/

namespace Wordcode

namespace Emitter

def fill (fin : Emitter) (patches : List Patch) (ws : List Word) : List Word :=
  patches.foldl (fun ws q => ws.set q.site (fin.resolve q)) ws

def filled (fin e : Emitter) : List Word := fin.fill e.patches.toList e.code.toList

theorem fill_append_patches (fin : Emitter) (qs qs' : List Patch) (ws : List Word) :
    fin.fill (qs ++ qs') ws = fin.fill qs' (fin.fill qs ws) :=
  List.foldl_append

@[simp] theorem length_fill (fin : Emitter) (qs : List Patch) (ws : List Word) :
    (fin.fill qs ws).length = ws.length := by
  induction qs generalizing ws with
  | nil => rfl
  | cons q qs ih =>
    rw [fill, List.foldl_cons, ← fill, ih, List.length_set]

@[simp] theorem length_filled (fin e : Emitter) : (fin.filled e).length = e.code.size := by
  rw [filled, length_fill, Array.length_toList]

theorem fill_append (fin : Emitter) {qs : List Patch} {ws : List Word} (vs : List Word)
    (h : ∀ q ∈ qs, q.site < ws.length) : fin.fill qs (ws ++ vs) = fin.fill qs ws ++ vs := by
  induction qs generalizing ws with
  | nil => rfl
  | cons q qs ih =>
    have hq : q.site < ws.length := h q List.mem_cons_self
    simp only [fill, List.foldl_cons, List.set_append_left _ _ hq] at ih ⊢
    apply ih
    intro r hr
    rw [List.length_set]
    exact h r (List.mem_cons_of_mem q hr)

theorem fill_set (fin : Emitter) {qs : List Patch} {i : Nat} (ws : List Word) (w : Word)
    (h : ∀ q ∈ qs, q.site ≠ i) : fin.fill qs (ws.set i w) = (fin.fill qs ws).set i w := by
  induction qs generalizing ws with
  | nil => rfl
  | cons q qs ih =>
    have hq : q.site ≠ i := h q List.mem_cons_self
    simp only [fill, List.foldl_cons] at ih ⊢
    rw [List.set_comm _ _ (Ne.symm hq)]
    exact ih _ (fun r hr => h r (List.mem_cons_of_mem q hr))

theorem fill_getElem? (fin : Emitter) {qs : List Patch} {i : Nat} (ws : List Word)
    (h : ∀ q ∈ qs, q.site ≠ i) : (fin.fill qs ws)[i]? = ws[i]? := by
  induction qs generalizing ws with
  | nil => rfl
  | cons q qs ih =>
    have hq : q.site ≠ i := h q List.mem_cons_self
    simp only [fill, List.foldl_cons] at ih ⊢
    rw [ih _ (fun r hr => h r (List.mem_cons_of_mem q hr)), List.getElem?_set_ne hq]

theorem fill_site (fin : Emitter) {qs : List Patch} {q : Patch} {ws : List Word}
    (hs : (qs.map Patch.site).Pairwise (· < ·)) (hq : q ∈ qs) (hin : q.site < ws.length) :
    (fin.fill qs ws)[q.site]? = some (fin.resolve q) := by
  induction qs generalizing ws with
  | nil => simp at hq
  | cons r qs ih =>
    rw [List.map_cons, List.pairwise_cons] at hs
    rcases List.mem_cons.mp hq with rfl | hq
    · have hlater : ∀ r ∈ qs, r.site ≠ q.site := by
        intro r hr
        have hlt := hs.1 r.site (List.mem_map_of_mem hr)
        omega
      rw [fill, List.foldl_cons, ← fill, fill_getElem? fin _ hlater,
        List.getElem?_set_self hin]
    · rw [fill, List.foldl_cons, ← fill]
      exact ih hs.2 hq (by rwa [List.length_set])

theorem toList_patched (e : Emitter) : e.patched.toList = e.filled e := by
  unfold patched filled fill
  rw [← Array.foldl_toList]
  generalize e.patches.toList = qs
  generalize e.code = code
  induction qs generalizing code with
  | nil => rfl
  | cons q qs ih =>
    rw [List.foldl_cons, List.foldl_cons, ih, Array.toList_setIfInBounds]

structure Sited (e : Emitter) : Prop where
  inside : ∀ q ∈ e.patches, q.site < e.code.size
  ascending : (e.patches.toList.map Patch.site).Pairwise (· < ·)

def Open (e : Emitter) : Prop := ∀ q ∈ e.patches, q.site + 1 < e.code.size

/-- From `e` to `e'` the words `ws` were added, as `fin` fills them in, and the names with a slot
became `slots`. -/
structure Emits (fin e e' : Emitter) (slots : List String) (ws : List Word) : Prop where
  filled : fin.filled e' = fin.filled e ++ ws
  fresh : ∀ q ∈ e'.patches, q ∈ e.patches ∨ e.code.size ≤ q.site
  sited : e'.Sited
  slots : e'.slots = slots
  bodies : e'.bodies = e.bodies

section Steps

variable {fin e e₁ e₂ e' : Emitter} {slots slots' : List String} {ws vs : List Word}

theorem Emits.size (h : Emits fin e e' slots ws) : e'.code.size = e.code.size + ws.length := by
  have hl := congrArg List.length h.filled
  simpa only [length_filled, List.length_append] using hl

theorem Emits.refl (h : e.Sited) (hs : e.slots = slots) : Emits fin e e slots [] :=
  ⟨by simp, fun q hq => Or.inl hq, h, hs, rfl⟩

theorem Emits.trans (h : Emits fin e e₁ slots ws) (h' : Emits fin e₁ e₂ slots' vs) :
    Emits fin e e₂ slots' (ws ++ vs) := by
  refine ⟨?_, ?_, h'.sited, h'.slots, h'.bodies.trans h.bodies⟩
  · rw [h'.filled, h.filled, List.append_assoc]
  · intro q hq
    have hsize := h.size
    rcases h'.fresh q hq with hold | hnew
    · exact h.fresh q hold
    · exact Or.inr (by omega)

/-- Words that are known when they are emitted. -/
theorem Emits.append (h : Emits fin e e₁ slots ws) (hc : e₂.code.toList = e₁.code.toList ++ vs)
    (hp : e₂.patches = e₁.patches) (hs : e₂.slots = e₁.slots) (hb : e₂.bodies = e₁.bodies) :
    Emits fin e e₂ slots (ws ++ vs) := by
  have hsize : e₂.code.size = e₁.code.size + vs.length := by
    rw [← Array.length_toList, hc, List.length_append, Array.length_toList]
  refine ⟨?_, ?_, ⟨?_, ?_⟩, hs.trans h.slots, hb.trans h.bodies⟩
  · have hin : ∀ q ∈ e₁.patches.toList, q.site < e₁.code.toList.length := by
      intro q hq
      exact h.sited.inside q (Array.mem_toList_iff.mp hq)
    unfold Emitter.filled
    rw [hc, hp, fill_append fin vs hin, ← List.append_assoc]
    congr 1
    exact h.filled
  · rw [hp]
    exact h.fresh
  · intro q hq
    rw [hp] at hq
    have hin := h.sited.inside q hq
    omega
  · rw [hp]
    exact h.sited.ascending

theorem Emits.emit (h : Emits fin e e' slots ws) (op : Opcode) :
    Emits fin e (e'.emit op) slots (ws ++ [op.word]) :=
  h.append (by simp [Emitter.emit]) rfl rfl rfl

theorem Emits.emitWith (h : Emits fin e e' slots ws) (op : Opcode) (w : Word) :
    Emits fin e (e'.emitWith op w) slots (ws ++ [op.word, w]) :=
  h.append (by simp [Emitter.emitWith]) rfl rfl rfl

theorem emitJumpBack_eq (e : Emitter) (start : Nat) :
    e.emitJumpBack start = e.emitWith .jump (.ofNat start - .ofNat (e.code.size + 1)) := by
  have hsite : (e.emitWith .jump 0).lastSite = (e.code.push Opcode.jump.word).size := by
    simp [emitWith, lastSite]
  have hset (w : Word) : (e.emitWith .jump 0).code.setIfInBounds
      (e.code.push Opcode.jump.word).size w = (e.emitWith .jump w).code := by
    apply Array.ext'
    simp [emitWith]
  rw [emitJumpBack]
  rw [hsite, hset, Array.size_push]
  rfl

theorem Emits.declare (h : Emits fin e e' slots ws) (name : String) :
    Emits fin e (e'.declare name) (slots ++ [name]) ws :=
  ⟨h.filled, h.fresh, ⟨h.sited.inside, h.sited.ascending⟩, by rw [Emitter.declare, h.slots],
    h.bodies⟩

theorem Sited.open_emitWith (h : e.Sited) (op : Opcode) (w : Word) : (e.emitWith op w).Open := by
  intro q hq
  have hin := h.inside q hq
  simp only [Emitter.emitWith, Array.size_push]
  omega

theorem Open.jumpHere (h : e.Open) (site : Nat) : (e.jumpHere site).Open := by
  intro q hq
  simpa only [Emitter.jumpHere, Array.size_setIfInBounds] using h q hq

theorem lastSite_jumpHere (e : Emitter) (site : Nat) : (e.jumpHere site).lastSite = e.lastSite := by
  simp only [lastSite, Emitter.jumpHere, Array.size_setIfInBounds]

/-- The last word becomes pending: it will hold what `fin` knows. -/
theorem Emits.later {w : Word} (h : Emits fin e e' slots (ws ++ [w])) (ho : e'.Open)
    (value : Pending) :
    Emits fin e (e'.later value) slots
      (ws ++ [fin.resolve { site := e.code.size + ws.length, value }]) := by
  have hsize := h.size
  rw [List.length_append, List.length_singleton] at hsize
  have hsite : e'.lastSite = e.code.size + ws.length := by
    unfold lastSite
    omega
  refine ⟨?_, ?_, ⟨?_, ?_⟩, h.slots, h.bodies⟩
  · have hl : (fin.filled e ++ ws).length = e.code.size + ws.length := by
      rw [List.length_append, length_filled]
    have hf := h.filled
    unfold Emitter.filled at hf ⊢
    simp only [Emitter.later, Array.toList_push, fill_append_patches]
    rw [hf, hsite, ← List.append_assoc, ← Emitter.filled]
    simp only [fill, List.foldl_cons, List.foldl_nil]
    rw [List.set_append_right _ _ (by omega), hl, Nat.sub_self, List.append_assoc]
    rfl
  · intro q hq
    simp only [Emitter.later, Array.mem_push] at hq
    rcases hq with hold | rfl
    · exact h.fresh q hold
    · exact Or.inr (by simp only [hsite]; omega)
  · intro q hq
    simp only [Emitter.later, Array.mem_push] at hq
    rcases hq with hold | rfl
    · exact h.sited.inside q hold
    · simp only [Emitter.later, hsite]
      omega
  · simp only [Emitter.later, Array.toList_push, List.map_append, List.map_cons, List.map_nil]
    refine List.pairwise_append.mpr ⟨h.sited.ascending, List.pairwise_singleton _ _, ?_⟩
    intro i hi j hj
    obtain ⟨q, hq, rfl⟩ := List.mem_map.mp hi
    have hopen := ho q (Array.mem_toList_iff.mp hq)
    rw [List.mem_singleton.mp hj, hsite]
    omega

theorem Emits.emitLater (h : Emits fin e e' slots ws) (op : Opcode) (value : Pending) :
    Emits fin e ((e'.emitWith op 0).later value) slots
      (ws ++ [op.word, fin.resolve { site := e.code.size + ws.length + 1, value }]) := by
  have hw := h.emitWith op 0
  rw [List.append_cons] at hw ⊢
  have hout := hw.later (h.sited.open_emitWith op 0) value
  rwa [List.length_append, ← Nat.add_assoc] at hout

/-- The open last word of a first part becomes the distance to the end of the second. -/
theorem Emits.jumpHere {w : Word} (h : Emits fin e e₁ slots (ws ++ [w])) (ho : e₁.Open)
    (h' : Emits fin e₁ e₂ slots' vs) :
    Emits fin e (e₂.jumpHere e₁.lastSite) slots' (ws ++ [.ofNat (vs.length + 1)] ++ vs) := by
  have hsize := h.size
  have hsize' := h'.size
  rw [List.length_append, List.length_singleton] at hsize
  have hsite : e₁.lastSite = e.code.size + ws.length := by
    unfold lastSite
    omega
  have htrans := h.trans h'
  have hfree : ∀ q ∈ e₂.patches.toList, q.site ≠ e₁.lastSite := by
    intro q hq
    rcases h'.fresh q (Array.mem_toList_iff.mp hq) with hold | hnew
    · have hopen := ho q hold
      omega
    · omega
  refine ⟨?_, htrans.fresh, ⟨?_, htrans.sited.ascending⟩, h'.slots, htrans.bodies⟩
  · have hl : (fin.filled e ++ ws).length = e.code.size + ws.length := by
      rw [List.length_append, length_filled]
    have hf := htrans.filled
    have hoffset : e₂.code.size - e₁.lastSite = vs.length + 1 := by omega
    unfold Emitter.filled at hf ⊢
    simp only [Emitter.jumpHere, Array.toList_setIfInBounds]
    rw [fill_set fin _ _ hfree, hf, hsite, ← Emitter.filled, ← hsite, hoffset, hsite]
    simp only [List.append_assoc, List.singleton_append]
    rw [← List.append_assoc, List.set_append_right _ _ (by omega), hl, Nat.sub_self,
      List.append_assoc]
    rfl
  · intro q hq
    have hin := htrans.sited.inside q hq
    simpa only [Emitter.jumpHere, Array.size_setIfInBounds] using hin

end Steps

def linkage (fin : Emitter) (fs : List Function) (names : List String) : Linkage where
  names
  target name := ((fin.bodies[fs.findIdx (·.name == name) + 1]?).map Body.start).getD 0

theorem resolve_bodyStart (fin : Emitter) (fs : List Function) (names : List String) (site : Nat)
    (name : String) :
    fin.resolve { site, value := .bodyStart (fs.findIdx (·.name == name) + 1) } =
      .ofNat ((fin.linkage fs names).target name) := by
  simp only [resolve, linkage]
  cases fin.bodies[fs.findIdx (·.name == name) + 1]? <;> rfl

theorem slot?_eq_idxOf {e : Emitter} {names : List String} {name : String}
    (hn : e.slots <+: names) (h : name ∈ e.slots) : e.slot? name = some (names.idxOf name) := by
  obtain ⟨more, rfl⟩ := hn
  rw [List.idxOf_append, if_pos h]
  have hlt := List.idxOf_lt_length_of_mem h
  refine List.idxOf?_eq_some_iff.mpr ⟨hlt, List.getElem_idxOf hlt, ?_⟩
  intro j hj
  have hne := List.not_of_lt_findIdx hj
  simpa using hne

theorem emitCall_emits {fin e : Emitter} {slots : List String} (hs : e.Sited)
    (hd : e.slots = slots) (argc body : Nat) :
    Emits fin e (e.emitCall argc body) slots [Opcode.call.word, .ofNat argc,
      fin.resolve { site := e.code.size + 2, value := .bodyStart body }] := by
  have hcode : Emits fin e
      { e with code := ((e.code.push Opcode.call.word).push (.ofNat argc)).push 0 } slots
      ([Opcode.call.word, .ofNat argc] ++ [0]) :=
    (Emits.refl hs hd).append (by simp) rfl rfl rfl
  refine hcode.later ?_ (.bodyStart body)
  intro q hq
  have hin := hs.inside q hq
  simp only [Array.size_push]
  omega

section Lowering

variable (fin : Emitter) (fs : List Function) {names : List String}

theorem lowerVar_emits {e : Emitter} {slots : List String} {name : String} {span : Span}
    (he : useErrors slots name span = []) (hn : slots <+: names) (hs : e.Sited)
    (hd : e.slots = slots) :
    Emits fin e (e.lowerVar name span) slots
      (Operand.layout (fin.linkage fs names) (.var name span)) := by
  subst hd
  rw [lowerVar, slot?_eq_idxOf hn (useErrors_eq_nil.mp he)]
  exact (Emits.refl hs rfl).emitWith .load _

theorem lowerCall_emits {e : Emitter} {slots : List String} {name : String} {argc : Nat}
    {span : Span} (he : callErrors fs name argc span = []) (hs : e.Sited) (hd : e.slots = slots) :
    Emits fin e (e.lowerCall (signaturesOf fs) name argc span) slots
      (Instruction.call (.ofNat argc) (.ofNat ((fin.linkage fs names).target name))).encode := by
  obtain ⟨f, hf, ha⟩ := callErrors_eq_nil.mp he
  simp only [lowerCall, lookup_signaturesOf, hf, Option.map_some, if_pos ha]
  rw [← resolve_bodyStart fin fs names (e.code.size + 2) name]
  exact emitCall_emits hs hd _ _

mutual
theorem lowerOperand_emits {slots : List String} (hn : slots <+: names) :
    (x : Operand) → {e : Emitter} → x.errors fs slots = [] → e.Sited → e.slots = slots →
      Emits fin e (lowerOperand (signaturesOf fs) x e) slots (x.layout (fin.linkage fs names))
  | .int value, _, _, hs, hd => (Emits.refl hs hd).emitWith .int value
  | .var _ _, _, he, hs, hd => lowerVar_emits fin fs he hn hs hd
  | .unary op x, _, he, hs, hd => (lowerOperand_emits hn x he hs hd).emit (.unary op)
  | .chain first rest, _, he, hs, hd | .group first rest, _, he, hs, hd => by
    obtain ⟨hf, hr⟩ := List.append_eq_nil_iff.mp he
    have h := lowerOperand_emits hn first hf hs hd
    exact h.trans (lowerLinks_emits hn rest hr h.sited h.slots)
  | .call _ args _, _, he, hs, hd => by
    obtain ⟨ha, hc⟩ := List.append_eq_nil_iff.mp he
    have h := lowerOperands_emits hn args ha hs hd
    exact h.trans (lowerCall_emits fin fs hc h.sited h.slots)
theorem lowerLinks_emits {slots : List String} (hn : slots <+: names) :
    (rest : Links) → {e : Emitter} → Links.errors fs slots rest = [] → e.Sited →
      e.slots = slots →
      Emits fin e (lowerLinks (signaturesOf fs) rest e) slots
        (Links.layout (fin.linkage fs names) rest)
  | [], _, _, hs, hd => Emits.refl hs hd
  | (op, x) :: rest, _, he, hs, hd => by
    obtain ⟨hx, hr⟩ := List.append_eq_nil_iff.mp he
    have h := (lowerOperand_emits hn x hx hs hd).emit (.binary op)
    exact h.trans (lowerLinks_emits hn rest hr h.sited h.slots)
theorem lowerOperands_emits {slots : List String} (hn : slots <+: names) :
    (xs : List Operand) → {e : Emitter} → Operand.errorsAll fs slots xs = [] → e.Sited →
      e.slots = slots →
      Emits fin e (lowerOperands (signaturesOf fs) xs e) slots
        (Operand.layoutAll (fin.linkage fs names) xs)
  | [], _, _, hs, hd => Emits.refl hs hd
  | x :: xs, _, he, hs, hd => by
    obtain ⟨hx, hr⟩ := List.append_eq_nil_iff.mp he
    have h := lowerOperand_emits hn x hx hs hd
    exact h.trans (lowerOperands_emits hn xs hr h.sited h.slots)
end

theorem lowerDeclare_emits {e : Emitter} {slots : List String} {name : String} {x : Operand}
    {span : Span} (hr : redeclareErrors slots name span = []) (hx : x.errors fs slots = [])
    (hn : slots ++ [name] <+: names) (hs : e.Sited) (hd : e.slots = slots) :
    Emits fin e (e.lowerDeclare (signaturesOf fs) name x span) (slots ++ [name])
      (Statement.layout (fin.linkage fs names) (.declare name x span)) := by
  have hfree : name ∉ slots := redeclareErrors_eq_nil.mp hr
  have hslot : e.slot? name = none := by
    rw [slot?, hd]
    exact List.idxOf?_eq_none_iff.mpr hfree
  have hprefix : slots <+: names := (List.prefix_append slots [name]).trans hn
  have h := lowerOperand_emits fin fs hprefix x hx hs hd
  have hindex : names.idxOf name = slots.length := by
    obtain ⟨more, rfl⟩ := hn
    rw [List.append_assoc, List.idxOf_append, if_neg hfree]
    simp
  simp only [lowerDeclare, hslot, h.slots]
  rw [Statement.layout, Linkage.slot, linkage, hindex]
  exact (h.declare name).emitWith .store _

theorem lowerAssign_emits {e : Emitter} {slots : List String} {name : String} {x : Operand}
    {span : Span} (hx : x.errors fs slots = []) (hu : useErrors slots name span = [])
    (hn : slots <+: names) (hs : e.Sited) (hd : e.slots = slots) :
    Emits fin e (e.lowerAssign (signaturesOf fs) name x span) slots
      (Statement.layout (fin.linkage fs names) (.assign name x span)) := by
  have h := lowerOperand_emits fin fs hn x hx hs hd
  have hslot : (lowerOperand (signaturesOf fs) x e).slot? name = some (names.idxOf name) := by
    apply slot?_eq_idxOf
    · rwa [h.slots]
    · rw [h.slots]
      exact useErrors_eq_nil.mp hu
  simp only [lowerAssign, hslot]
  exact h.emitWith .store _

theorem ofNat_sub_ofNat_add (a b : Nat) :
    Int64.ofNat a - Int64.ofNat (a + b) = -Int64.ofNat b := by
  rw [Int64.ofNat_add, Int64.sub_eq_add_neg, Int64.neg_add, Int64.sub_eq_add_neg,
    ← Int64.add_assoc, Int64.add_right_neg, Int64.zero_add]

mutual
theorem lowerStatement_emits : (s : Statement) → {slots : List String} → {e : Emitter} →
    s.errors fs slots = [] → slots ++ s.declares <+: names → e.Sited → e.slots = slots →
      Emits fin e (lowerStatement (signaturesOf fs) s e) (slots ++ s.declares)
        (s.layout (fin.linkage fs names))
  | .declare _ _ _, _, _, he, hn, hs, hd => by
    obtain ⟨hr, hx⟩ := List.append_eq_nil_iff.mp he
    exact lowerDeclare_emits fin fs hr hx hn hs hd
  | .assign _ _ _, _, _, he, hn, hs, hd => by
    obtain ⟨hx, hu⟩ := List.append_eq_nil_iff.mp he
    rw [Statement.declares, List.append_nil] at hn ⊢
    exact lowerAssign_emits fin fs hx hu hn hs hd
  | .cond test yes none _, slots, _, he, hn, hs, hd => by
    obtain ⟨ht, hy⟩ := List.append_eq_nil_iff.mp he
    have hprefix : slots <+: names := (List.prefix_append slots _).trans hn
    have h := lowerOperand_emits fin fs hprefix test ht hs hd
    have hj := h.emitWith .jumpIfFalse 0
    have hb := lowerBlock_emits yes hy hn hj.sited hj.slots
    rw [List.append_cons] at hj
    have hout := hj.jumpHere (h.sited.open_emitWith _ _) hb
    rw [Block.length_layout] at hout
    simpa only [lowerStatement, Statement.layout, Statement.declares, Instruction.encode,
      Instruction.opcode, Instruction.immediates, List.append_assoc, List.cons_append,
      List.nil_append] using hout
  | .cond test yes (some no) _, slots, _, he, hn, hs, hd => by
    obtain ⟨hty, hno⟩ := List.append_eq_nil_iff.mp he
    obtain ⟨ht, hy⟩ := List.append_eq_nil_iff.mp hty
    have hprefix : slots <+: names := (List.prefix_append slots _).trans hn
    rw [Statement.declares, ← List.append_assoc] at hn ⊢
    have hprefix' : slots ++ Block.declares yes <+: names := (List.prefix_append _ _).trans hn
    have h := lowerOperand_emits fin fs hprefix test ht hs hd
    have hj := h.emitWith .jumpIfFalse 0
    have hb := lowerBlock_emits yes hy hprefix' hj.sited hj.slots
    have hx := hb.emitWith .jump 0
    rw [List.append_cons] at hj hx
    have hskip := hj.jumpHere (h.sited.open_emitWith _ _) hx
    have hc := lowerBlock_emits no hno hn hskip.sited hskip.slots
    rw [← List.append_assoc] at hskip
    have hout := hskip.jumpHere ((hb.sited.open_emitWith _ _).jumpHere _) hc
    rw [lastSite_jumpHere] at hout
    simpa only [lowerStatement, Statement.layout, Instruction.encode, Instruction.opcode,
      Instruction.immediates, List.append_assoc, List.cons_append, List.nil_append,
      Block.length_layout, List.length_append, List.length_cons, List.length_nil] using hout
  | .loop test body _, slots, e, he, hn, hs, hd => by
    obtain ⟨ht, hb⟩ := List.append_eq_nil_iff.mp he
    have hprefix : slots <+: names := (List.prefix_append slots _).trans hn
    have h := lowerOperand_emits fin fs hprefix test ht hs hd
    have hj := h.emitWith .jumpIfFalse 0
    have hbody := lowerBlock_emits body hb hn hj.sited hj.slots
    have hsize := (hj.trans hbody).size
    have hback : (.ofNat e.code.size - .ofNat ((lowerBlock (signaturesOf fs) body
        ((lowerOperand (signaturesOf fs) test e).emitWith .jumpIfFalse 0)).code.size + 1) : Word) =
        -.ofNat (test.width + Block.width body + 3) := by
      rw [← ofNat_sub_ofNat_add e.code.size, hsize]
      simp only [List.length_append, Operand.length_layout, Block.length_layout, List.length_cons,
        List.length_nil]
      congr 2
      omega
    have hx := hbody.emitWith .jump (-.ofNat (test.width + Block.width body + 3))
    rw [List.append_cons] at hj
    have hout := hj.jumpHere (h.sited.open_emitWith _ _) hx
    simpa only [lowerStatement, emitJumpBack_eq, hback, Statement.layout, Statement.declares,
      Instruction.encode, Instruction.opcode, Instruction.immediates, List.append_assoc,
      List.cons_append, List.nil_append, Block.length_layout, List.length_append,
      List.length_cons, List.length_nil] using hout
  | .discard x _, _, _, he, hn, hs, hd => by
    rw [Statement.declares, List.append_nil] at hn ⊢
    exact (lowerOperand_emits fin fs hn x he hs hd).emit .pop
  | .ret x _, _, _, he, hn, hs, hd => by
    rw [Statement.declares, List.append_nil] at hn ⊢
    exact (lowerOperand_emits fin fs hn x he hs hd).emit .ret
theorem lowerBlock_emits : (b : Block) → {slots : List String} → {e : Emitter} →
    Block.errors fs slots b = [] → slots ++ Block.declares b <+: names → e.Sited →
      e.slots = slots →
      Emits fin e (lowerBlock (signaturesOf fs) b e) (slots ++ Block.declares b)
        (Block.layout (fin.linkage fs names) b)
  | [], _, _, _, _, hs, hd => by
    rw [Block.declares, List.append_nil]
    exact Emits.refl hs hd
  | s :: rest, slots, _, he, hn, hs, hd => by
    obtain ⟨hh, hr⟩ := List.append_eq_nil_iff.mp he
    rw [Block.declares, ← List.append_assoc] at hn ⊢
    have h := lowerStatement_emits s hh ((List.prefix_append _ _).trans hn) hs hd
    exact h.trans (lowerBlock_emits rest hr hn h.sited h.slots)
end

theorem declareParams_emits {span : Span} {params earlier : List String} {e : Emitter}
    (he : paramErrors span earlier params = []) (hs : e.Sited) (hd : e.slots = earlier) :
    Emits fin e (declareParams span params e) (earlier ++ params) [] := by
  induction params generalizing earlier e with
  | nil =>
    rw [List.append_nil]
    exact Emits.refl hs hd
  | cons name rest ih =>
    obtain ⟨hr, he⟩ := List.append_eq_nil_iff.mp he
    have hslot : ¬ (e.slot? name).isSome = true := by
      rw [← mem_slots_iff, hd]
      exact redeclareErrors_eq_nil.mp hr
    have h : Emits fin e (e.declare name) (earlier ++ [name]) [] :=
      (Emits.refl hs hd).declare name
    have hout := h.trans (ih he h.sited h.slots)
    rw [declareParams, if_neg hslot]
    rwa [List.append_assoc] at hout

/-- A body's code, its pending words and its record. -/
theorem lowerBody_filled {f : Function} {e : Emitter} (he : f.errors fs = []) (hs : e.Sited) :
    fin.filled (e.lowerBody (signaturesOf fs) f.name f.params f.body f.span) = fin.filled e
        ++ ([Opcode.stackAdjust.word,
              fin.resolve { site := e.code.size + 1, value := .localCount e.bodies.length }]
          ++ Block.layout (fin.linkage fs f.names) f.body
          ++ [Opcode.jump.word, fin.resolve {
                site := e.code.size + 2 + Block.width f.body + 1, value := .distanceToEnd }]) ∧
      (e.lowerBody (signaturesOf fs) f.name f.params f.body f.span).Sited ∧
      (e.lowerBody (signaturesOf fs) f.name f.params f.body f.span).bodies =
        e.bodies ++ [f.placed e.code.size] := by
  obtain ⟨hp, hb⟩ := List.append_eq_nil_iff.mp he
  have hs' : { e with slots := [] }.Sited := ⟨hs.inside, hs.ascending⟩
  have hparams := declareParams_emits fin hp hs' rfl
  have hadjust := hparams.emitLater .stackAdjust (.localCount e.bodies.length)
  have hblock := hadjust.trans
    (lowerBlock_emits fin fs f.body hb List.prefix_rfl hadjust.sited hadjust.slots)
  have hend := hblock.emitLater .jump .distanceToEnd
  have hsize := hend.size
  have hfilled := hend.filled
  simp only [List.length_append, List.length_cons, List.length_nil, Block.length_layout,
    List.nil_append, Nat.zero_add, Nat.add_assoc, Nat.reduceAdd] at hsize hfilled
  refine ⟨?_, ⟨hend.sited.inside, hend.sited.ascending⟩, ?_⟩
  · simp only [Nat.add_assoc]
    exact hfilled
  · simp only [lowerBody, Function.placed]
    rw [hend.bodies, hend.slots]
    congr 4

theorem size_lowerBody {f : Function} {e : Emitter} (he : f.errors fs = []) (hs : e.Sited) :
    (e.lowerBody (signaturesOf fs) f.name f.params f.body f.span).code.size =
      e.code.size + f.width := by
  have hl := congrArg List.length (lowerBody_filled e fs he hs).1
  simp only [length_filled, List.length_append, List.length_cons, List.length_nil,
    Block.length_layout] at hl
  rw [hl, Function.width]

theorem lowerFunctions_placed {gs : List Function} {e : Emitter}
    (he : ∀ g ∈ gs, g.errors fs = []) (hs : e.Sited) :
    (e.lowerFunctions (signaturesOf fs) gs).bodies =
        e.bodies ++ Function.placedAll e.code.size gs ∧
      (e.lowerFunctions (signaturesOf fs) gs).code.size = e.code.size + Function.widthAll gs ∧
      (e.lowerFunctions (signaturesOf fs) gs).Sited := by
  induction gs generalizing e with
  | nil => exact ⟨(List.append_nil _).symm, rfl, hs⟩
  | cons g gs ih =>
    have hg := he g List.mem_cons_self
    obtain ⟨_, hsited, hbodies⟩ := lowerBody_filled e fs hg hs
    have hsize := size_lowerBody fs hg hs
    obtain ⟨hb, hc, hout⟩ := ih (fun g' hg' => he g' (List.mem_cons_of_mem g hg')) hsited
    refine ⟨?_, ?_, hout⟩
    · rw [lowerFunctions, hb, hbodies, hsize, List.append_assoc]
      rfl
    · rw [lowerFunctions, hc, hsize, Function.widthAll, Nat.add_assoc]

theorem lowerFunctions_filled {gs : List Function} {e : Emitter}
    (he : ∀ g ∈ gs, g.errors fs = []) (hs : e.Sited)
    (hfin : fin.bodies = e.bodies ++ Function.placedAll e.code.size gs) :
    fin.filled (e.lowerFunctions (signaturesOf fs) gs) = fin.filled e
      ++ Function.layoutAll (fin.linkage fs []).target fin.code.size e.code.size gs := by
  induction gs generalizing e with
  | nil => exact (List.append_nil _).symm
  | cons g gs ih =>
    have hg := he g List.mem_cons_self
    obtain ⟨hfilled, hsited, hbodies⟩ := lowerBody_filled fin fs hg hs
    have hsize := size_lowerBody fs hg hs
    have hlocals : fin.resolve { site := e.code.size + 1, value := .localCount e.bodies.length } =
        .ofNat g.names.length := by
      simp [resolve, hfin, Function.placedAll, Function.placed]
    have hrest := ih (fun g' hg' => he g' (List.mem_cons_of_mem g hg')) hsited
      (by rw [hfin, hbodies, hsize, List.append_assoc]; rfl)
    rw [lowerFunctions, hrest, hfilled, hlocals, hsize, List.append_assoc]
    rfl

end Lowering

end Emitter

namespace Program

theorem sited_opening (p : Program) : p.opening.Sited := ⟨by simp [opening], by simp [opening]⟩

/-- Bodies, size and pending words of a program without errors. -/
theorem emission_placed {p : Program} (h : p.errors = []) :
    p.emission.bodies = Function.placedAll 0 p.bodies ∧ p.emission.code.size = p.width ∧
      p.emission.Sited := by
  obtain ⟨hbodies, hsize, hsited⟩ := Emitter.lowerFunctions_placed p.functions
    (fun f hf => errors_body h hf) p.sited_opening
  exact ⟨hbodies, hsize.trans (Nat.zero_add _), hsited⟩

theorem target_emission {p : Program} (h : p.errors = []) (names : List String) :
    (p.emission.linkage p.functions names).target = p.target := by
  funext name
  simp only [Emitter.linkage, target, (emission_placed h).1, Function.getElem?_placedAll]
  cases hk : p.functions.findIdx? (·.name == name) with
  | none =>
    have hidx := List.findIdx_eq_length.mpr (List.findIdx?_eq_none_iff.mp hk)
    rw [hidx]
    simp [bodies]
  | some k =>
    obtain ⟨hlt, hidx⟩ := List.findIdx?_eq_some_iff_findIdx_eq.mp hk
    rw [hidx]
    simp [bodies, hlt, start, Function.placed]

theorem filled_emission {p : Program} (h : p.errors = []) :
    p.emission.filled p.emission = p.layout := by
  obtain ⟨hbodies, hsize, _⟩ := emission_placed h
  have hout := Emitter.lowerFunctions_filled p.emission p.functions
    (fun f hf => errors_body h hf) p.sited_opening hbodies
  rw [← emission_eq, target_emission h, hsize] at hout
  exact hout

theorem compile_eq_ok {p : Program} {im : Image} (h : p.compile = .ok im) :
    p.errors = [] ∧ im = { code := p.emission.patched, bodies := p.emission.bodies } := by
  unfold compile Emitter.finish at h
  by_cases he : p.emission.diagnostics.isEmpty = true
  · rw [if_pos he] at h
    refine ⟨?_, (Except.ok.inj h).symm⟩
    rw [← diagnostics_emission, Array.isEmpty_iff.mp he]
  · rw [if_neg he] at h
    contradiction

/-- An accepted program's image: the layout of its bodies, and where they lie in it. -/
theorem image_of_compile {p : Program} {im : Image} (h : p.compile = .ok im) :
    im.code.toList = p.layout ∧ im.bodies = Function.placedAll 0 p.bodies ∧ im.entry = 0 := by
  obtain ⟨he, rfl⟩ := compile_eq_ok h
  refine ⟨?_, (emission_placed he).1, rfl⟩
  rw [Emitter.toList_patched, filled_emission he]

/-- Compilation told by the static check and the layout. -/
theorem compile_eq_layout (p : Program) :
    p.compile =
      if p.errors = [] then
        .ok { code := p.layout.toArray, bodies := Function.placedAll 0 p.bodies }
      else .error p.errors := by
  have hd := p.diagnostics_emission
  by_cases he : p.errors = []
  · have hempty : p.emission.diagnostics.isEmpty = true := by
      simpa [he] using hd
    have hok : p.compile = .ok { code := p.emission.patched, bodies := p.emission.bodies } :=
      if_pos hempty
    obtain ⟨hcode, hbodies, -⟩ := image_of_compile hok
    dsimp only at hcode hbodies
    rw [if_pos he, hok, ← hcode, ← hbodies]
  · have hempty : ¬ p.emission.diagnostics.isEmpty = true := by
      intro hc
      apply he
      rw [← hd, Array.isEmpty_iff.mp hc]
    rw [if_neg he, compile, Emitter.finish, if_neg hempty, hd]

/-- The finished stream is the direct layout: every pending word got the value it was waiting for,
and no other word was touched. -/
theorem code_eq_layout (p : Program) (im : Image) (h : p.compile = .ok im) :
    im.code.toList = p.layout ∧
      (∀ q ∈ p.emission.patches, im.code[q.site]? = some (p.emission.resolve q)) ∧
      ∀ i, (∀ q ∈ p.emission.patches, q.site ≠ i) → im.code[i]? = p.emission.code[i]? := by
  refine ⟨(image_of_compile h).1, ?_, ?_⟩
  · obtain ⟨he, rfl⟩ := compile_eq_ok h
    obtain ⟨_, _, hsited⟩ := emission_placed he
    intro q hq
    rw [← Array.getElem?_toList, Emitter.toList_patched, Emitter.filled]
    exact Emitter.fill_site _ hsited.ascending (Array.mem_toList_iff.mpr hq) (hsited.inside q hq)
  · obtain ⟨he, rfl⟩ := compile_eq_ok h
    intro i hi
    rw [← Array.getElem?_toList, Emitter.toList_patched, Emitter.filled, Emitter.fill_getElem?,
      Array.getElem?_toList]
    intro q hq
    exact hi q (Array.mem_toList_iff.mp hq)

theorem code_eq_layout_gcd :
    ∃ im, Sample.greatestCommonDivisor.compile = .ok im ∧
      im.code.toList = Sample.greatestCommonDivisor.layout ∧
      (∀ q ∈ Sample.greatestCommonDivisor.emission.patches,
        im.code[q.site]? = some (Sample.greatestCommonDivisor.emission.resolve q)) ∧
      ∀ i, (∀ q ∈ Sample.greatestCommonDivisor.emission.patches, q.site ≠ i) →
        im.code[i]? = Sample.greatestCommonDivisor.emission.code[i]? :=
  ⟨_, rfl, code_eq_layout _ _ rfl⟩

end Program

end Wordcode
