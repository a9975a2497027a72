import Wordcode.Compile.Lowering

/-!
What is wrong with a program, read off its tree. Main statement: compilation accepts exactly the
programs in which the check finds nothing, and otherwise reports exactly its list.
-/

namespace Wordcode

def callErrors (fs : List Function) (name : String) (argc : Nat) (span : Span) : List Diagnostic :=
  match fs.find? (·.name == name) with
  | none => [.undefinedFunction name span]
  | some f =>
    if f.params.length = argc then [] else [.arityMismatch name f.params.length argc span]

def useErrors (declared : List String) (name : String) (span : Span) : List Diagnostic :=
  if name ∈ declared then [] else [.undeclaredVariable name span]

def redeclareErrors (declared : List String) (name : String) (span : Span) : List Diagnostic :=
  if name ∈ declared then [.duplicateDeclaration name span] else []

theorem callErrors_eq_nil {fs : List Function} {name : String} {argc : Nat} {span : Span} :
    callErrors fs name argc span = [] ↔
      ∃ f, fs.find? (·.name == name) = some f ∧ f.params.length = argc := by
  unfold callErrors
  cases fs.find? (·.name == name) <;> simp

theorem useErrors_eq_nil {declared : List String} {name : String} {span : Span} :
    useErrors declared name span = [] ↔ name ∈ declared := by
  simp [useErrors]

theorem redeclareErrors_eq_nil {declared : List String} {name : String} {span : Span} :
    redeclareErrors declared name span = [] ↔ name ∉ declared := by
  simp [redeclareErrors]

mutual
def Operand.errors (fs : List Function) (declared : List String) : Operand → List Diagnostic
  | .int _ => []
  | .var name span => useErrors declared name span
  | .unary _ x => x.errors fs declared
  | .chain first rest => first.errors fs declared ++ Links.errors fs declared rest
  | .group first rest => first.errors fs declared ++ Links.errors fs declared rest
  | .call name args span =>
    Operand.errorsAll fs declared args ++ callErrors fs name args.length span
def Links.errors (fs : List Function) (declared : List String) : Links → List Diagnostic
  | [] => []
  | (_, x) :: rest => x.errors fs declared ++ Links.errors fs declared rest
def Operand.errorsAll (fs : List Function) (declared : List String) :
    List Operand → List Diagnostic
  | [] => []
  | x :: rest => x.errors fs declared ++ Operand.errorsAll fs declared rest
end

mutual
def Statement.declares : Statement → List String
  | .declare name _ _ => [name]
  | .cond _ yes none _ => Block.declares yes
  | .cond _ yes (some no) _ => Block.declares yes ++ Block.declares no
  | .loop _ body _ => Block.declares body
  | .assign _ _ _ | .discard _ _ | .ret _ _ => []
def Block.declares : Block → List String
  | [] => []
  | s :: rest => s.declares ++ Block.declares rest
end

mutual
/-- A branch or a loop body sees the names declared before it and leaves its own to what follows. -/
def Statement.errors (fs : List Function) (declared : List String) : Statement → List Diagnostic
  | .declare name x span => redeclareErrors declared name span ++ x.errors fs declared
  | .assign name x span => x.errors fs declared ++ useErrors declared name span
  | .cond test yes none _ => test.errors fs declared ++ Block.errors fs declared yes
  | .cond test yes (some no) _ =>
    test.errors fs declared ++ Block.errors fs declared yes
      ++ Block.errors fs (declared ++ Block.declares yes) no
  | .loop test body _ => test.errors fs declared ++ Block.errors fs declared body
  | .discard x _ => x.errors fs declared
  | .ret x _ => x.errors fs declared
def Block.errors (fs : List Function) (declared : List String) : Block → List Diagnostic
  | [] => []
  | s :: rest => s.errors fs declared ++ Block.errors fs (declared ++ s.declares) rest
end

def paramErrors (span : Span) (earlier : List String) : List String → List Diagnostic
  | [] => []
  | name :: rest => redeclareErrors earlier name span ++ paramErrors span (earlier ++ [name]) rest

def Function.errors (fs : List Function) (f : Function) : List Diagnostic :=
  paramErrors f.span [] f.params ++ Block.errors fs f.params f.body

def functionErrors (earlier : List String) : List Function → List Diagnostic
  | [] => []
  | f :: rest =>
    (if f.name ∈ earlier then [.duplicateFunction f.name f.span] else [])
      ++ functionErrors (earlier ++ [f.name]) rest

def Program.mainFunction (p : Program) : Function :=
  { name := mainName, params := [], body := p.main }

def Program.bodies (p : Program) : List Function := p.mainFunction :: p.functions

def Program.errors (p : Program) : List Diagnostic :=
  functionErrors [] p.functions ++ p.bodies.flatMap (Function.errors p.functions)

theorem Program.errors_body {p : Program} (h : p.errors = []) {f : Function} (hf : f ∈ p.bodies) :
    f.errors p.functions = [] :=
  List.flatMap_eq_nil_iff.mp (List.append_eq_nil_iff.mp h).2 f hf

theorem lookup_signatures (fs : List Function) (name : String) (k : Nat) :
    ((fs.zipIdx k).map fun (f, body) =>
        (f.name, ({ body, arity := f.params.length } : Signature))).lookup name =
      (fs.find? (·.name == name)).map fun f =>
        { body := fs.findIdx (·.name == name) + k, arity := f.params.length } := by
  induction fs generalizing k with
  | nil => rfl
  | cons f fs ih =>
    by_cases h : f.name = name
    · simp [h, List.findIdx_cons]
    · have hb : (name == f.name) = false := by simpa using Ne.symm h
      have hb' : (f.name == name) = false := by simpa using h
      simp only [List.zipIdx_cons, List.map_cons, List.lookup_cons, hb, ih, List.find?_cons, hb',
        List.findIdx_cons, cond_false]
      congr 1
      funext g
      simp only [Signature.mk.injEq, and_true]
      omega

theorem lookup_signaturesOf (fs : List Function) (name : String) :
    (signaturesOf fs).lookup name =
      (fs.find? (·.name == name)).map fun f =>
        { body := fs.findIdx (·.name == name) + 1, arity := f.params.length } :=
  lookup_signatures fs name 1

namespace Emitter

def Knows (e : Emitter) (declared : List String) : Prop := ∀ name, name ∈ e.slots ↔ name ∈ declared

/-- What a piece of lowering reports, while the names with a slot become `declared`. -/
structure Reports (e e' : Emitter) (declared : List String) (ds : List Diagnostic) : Prop where
  list : e'.diagnostics.toList = e.diagnostics.toList ++ ds
  knows : e'.Knows declared

theorem Reports.refl {e : Emitter} {declared : List String} (h : e.Knows declared) :
    e.Reports e declared [] := ⟨by simp, h⟩

theorem Reports.trans {e₁ e₂ e₃ : Emitter} {names names' : List String} {ds ds' : List Diagnostic}
    (h : e₁.Reports e₂ names ds) (h' : e₂.Reports e₃ names' ds') :
    e₁.Reports e₃ names' (ds ++ ds') :=
  ⟨by rw [h'.list, h.list, List.append_assoc], h'.knows⟩

section Silent

variable {e e' : Emitter} {names : List String} {ds : List Diagnostic}

/-! Emitting words reports nothing and declares nothing. -/

theorem Reports.emit (h : e.Reports e' names ds) (op : Opcode) :
    e.Reports (e'.emit op) names ds := ⟨h.list, h.knows⟩

theorem Reports.emitWith (h : e.Reports e' names ds) (op : Opcode) (w : Word) :
    e.Reports (e'.emitWith op w) names ds := ⟨h.list, h.knows⟩

theorem Reports.emitJumpBack (h : e.Reports e' names ds) (start : Nat) :
    e.Reports (e'.emitJumpBack start) names ds := ⟨h.list, h.knows⟩

theorem Reports.emitCall (h : e.Reports e' names ds) (argc body : Nat) :
    e.Reports (e'.emitCall argc body) names ds := ⟨h.list, h.knows⟩

theorem Reports.later (h : e.Reports e' names ds) (value : Pending) :
    e.Reports (e'.later value) names ds := ⟨h.list, h.knows⟩

theorem Reports.jumpHere (h : e.Reports e' names ds) (site : Nat) :
    e.Reports (e'.jumpHere site) names ds := ⟨h.list, h.knows⟩

end Silent

theorem Reports.report {e e' : Emitter} {names : List String} {ds : List Diagnostic}
    (h : e.Reports e' names ds) (d : Diagnostic) : e.Reports (e'.report d) names (ds ++ [d]) :=
  ⟨by simp [Emitter.report, h.list], h.knows⟩

theorem mem_slots_iff (e : Emitter) (name : String) : name ∈ e.slots ↔ (e.slot? name).isSome :=
  List.isSome_idxOf?.symm

theorem lowerVar_reports {e : Emitter} {declared : List String} (h : e.Knows declared)
    (name : String) (span : Span) :
    e.Reports (e.lowerVar name span) declared (useErrors declared name span) := by
  have hs := mem_slots_iff e name
  rw [h name] at hs
  unfold lowerVar useErrors
  cases hslot : e.slot? name with
  | none =>
    rw [if_neg (by simp [hs, hslot])]
    exact ((Reports.refl h).report _).emitWith _ _
  | some slot =>
    rw [if_pos (by simp [hs, hslot])]
    exact (Reports.refl h).emitWith _ _

theorem lowerCall_reports {e : Emitter} {declared : List String} (h : e.Knows declared)
    (fs : List Function) (name : String) (argc : Nat) (span : Span) :
    e.Reports (e.lowerCall (signaturesOf fs) name argc span) declared
      (callErrors fs name argc span) := by
  unfold lowerCall callErrors
  rw [lookup_signaturesOf]
  cases fs.find? (·.name == name) with
  | none => exact (Reports.refl h).report _
  | some f =>
    by_cases ha : f.params.length = argc
    · simp only [Option.map_some, if_pos ha]
      exact (Reports.refl h).emitCall _ _
    · simp only [Option.map_some, if_neg ha]
      exact (Reports.refl h).report _

mutual
theorem lowerOperand_reports (fs : List Function) {declared : List String} :
    (x : Operand) → {e : Emitter} → e.Knows declared →
      e.Reports (lowerOperand (signaturesOf fs) x e) declared (x.errors fs declared)
  | .int _, _, h => (Reports.refl h).emitWith _ _
  | .var name span, _, h => lowerVar_reports h name span
  | .unary _ x, _, h => (lowerOperand_reports fs x h).emit _
  | .chain first rest, _, h | .group first rest, _, h =>
    have hf := lowerOperand_reports fs first h
    hf.trans (lowerLinks_reports fs rest hf.knows)
  | .call name args span, _, h =>
    have ha := lowerOperands_reports fs args h
    ha.trans (lowerCall_reports ha.knows fs name args.length span)
theorem lowerLinks_reports (fs : List Function) {declared : List String} :
    (rest : Links) → {e : Emitter} → e.Knows declared →
      e.Reports (lowerLinks (signaturesOf fs) rest e) declared (Links.errors fs declared rest)
  | [], _, h => Reports.refl h
  | (op, x) :: rest, _, h =>
    have hx := (lowerOperand_reports fs x h).emit (.binary op)
    hx.trans (lowerLinks_reports fs rest hx.knows)
theorem lowerOperands_reports (fs : List Function) {declared : List String} :
    (xs : List Operand) → {e : Emitter} → e.Knows declared →
      e.Reports (lowerOperands (signaturesOf fs) xs e) declared (Operand.errorsAll fs declared xs)
  | [], _, h => Reports.refl h
  | x :: xs, _, h =>
    have hx := lowerOperand_reports fs x h
    hx.trans (lowerOperands_reports fs xs hx.knows)
end

theorem Reports.declare {e e' : Emitter} {names : List String} {ds : List Diagnostic}
    (h : e.Reports e' names ds) (name : String) :
    e.Reports (e'.declare name) (names ++ [name]) ds :=
  ⟨h.list, by intro other; simp [Emitter.declare, h.knows other]⟩

theorem Reports.redeclare {e e' : Emitter} {names : List String} {ds : List Diagnostic}
    (h : e.Reports e' names ds) {name : String} (hn : name ∈ names) :
    e.Reports e' (names ++ [name]) ds := by
  refine ⟨h.list, ?_⟩
  intro other
  rw [h.knows other, List.mem_append, List.mem_singleton]
  constructor
  · exact Or.inl
  · rintro (ho | rfl)
    · exact ho
    · exact hn

theorem lowerDeclare_reports {e : Emitter} {declared : List String} (h : e.Knows declared)
    (fs : List Function) (name : String) (x : Operand) (span : Span) :
    e.Reports (e.lowerDeclare (signaturesOf fs) name x span) (declared ++ [name])
      (redeclareErrors declared name span ++ x.errors fs declared) := by
  have hs := mem_slots_iff e name
  rw [h name] at hs
  unfold lowerDeclare redeclareErrors
  cases hslot : e.slot? name with
  | none =>
    rw [if_neg (by simp [hs, hslot])]
    exact ((lowerOperand_reports fs x h).declare name).emitWith _ _
  | some slot =>
    have hn : name ∈ declared := by simp [hs, hslot]
    have hd := (Reports.refl h).report (.duplicateDeclaration name span)
    rw [if_pos hn]
    exact ((hd.trans (lowerOperand_reports fs x hd.knows)).redeclare hn).emitWith _ _

theorem lowerAssign_reports {e : Emitter} {declared : List String} (h : e.Knows declared)
    (fs : List Function) (name : String) (x : Operand) (span : Span) :
    e.Reports (e.lowerAssign (signaturesOf fs) name x span) declared
      (x.errors fs declared ++ useErrors declared name span) := by
  have hx := lowerOperand_reports fs x h
  have hs := mem_slots_iff (lowerOperand (signaturesOf fs) x e) name
  rw [hx.knows name] at hs
  unfold lowerAssign useErrors
  cases hslot : (lowerOperand (signaturesOf fs) x e).slot? name with
  | none =>
    rw [if_neg (by simp [hs, hslot])]
    simp only [hslot]
    exact hx.report _
  | some slot =>
    rw [if_pos (by simp [hs, hslot])]
    simp only [hslot, List.append_nil]
    exact hx.emitWith _ _

mutual
theorem lowerStatement_reports (fs : List Function) : (s : Statement) → {declared : List String} →
    {e : Emitter} → e.Knows declared →
      e.Reports (lowerStatement (signaturesOf fs) s e) (declared ++ s.declares)
        (s.errors fs declared)
  | .declare name x span, _, _, h => lowerDeclare_reports h fs name x span
  | .assign name x span, _, _, h => by
    rw [Statement.declares, List.append_nil]
    exact lowerAssign_reports h fs name x span
  | .cond test yes none _, _, _, h => by
    have ht := (lowerOperand_reports fs test h).emitWith .jumpIfFalse 0
    exact (ht.trans (lowerBlock_reports fs yes ht.knows)).jumpHere _
  | .cond test yes (some no) _, _, e, h => by
    let tested := (lowerOperand (signaturesOf fs) test e).emitWith .jumpIfFalse 0
    have ht := (lowerOperand_reports fs test h).emitWith .jumpIfFalse 0
    have hy := (ht.trans (lowerBlock_reports fs yes ht.knows)).emitWith .jump 0
    have hj := hy.jumpHere tested.lastSite
    have hn := hj.trans (lowerBlock_reports fs no hj.knows)
    rw [List.append_assoc] at hn
    exact hn.jumpHere _
  | .loop test body _, _, _, h => by
    have ht := (lowerOperand_reports fs test h).emitWith .jumpIfFalse 0
    exact ((ht.trans (lowerBlock_reports fs body ht.knows)).emitJumpBack _).jumpHere _
  | .discard x _, _, _, h => by
    rw [Statement.declares, List.append_nil]
    exact (lowerOperand_reports fs x h).emit .pop
  | .ret x _, _, _, h => by
    rw [Statement.declares, List.append_nil]
    exact (lowerOperand_reports fs x h).emit .ret
theorem lowerBlock_reports (fs : List Function) : (b : Block) → {declared : List String} →
    {e : Emitter} → e.Knows declared →
      e.Reports (lowerBlock (signaturesOf fs) b e) (declared ++ Block.declares b)
        (Block.errors fs declared b)
  | [], _, _, h => by
    rw [Block.declares, List.append_nil]
    exact Reports.refl h
  | s :: rest, _, _, h => by
    have hs := lowerStatement_reports fs s h
    have hr := hs.trans (lowerBlock_reports fs rest hs.knows)
    rwa [List.append_assoc] at hr
end

theorem declareParams_reports (span : Span) (params : List String) {earlier : List String}
    {e : Emitter} (h : e.Knows earlier) :
    e.Reports (declareParams span params e) (earlier ++ params)
      (paramErrors span earlier params) := by
  induction params generalizing earlier e with
  | nil =>
    rw [List.append_nil]
    exact Reports.refl h
  | cons name rest ih =>
    have hn := mem_slots_iff e name
    rw [h name] at hn
    have hstep : e.Reports (if (e.slot? name).isSome then
        e.report (.duplicateDeclaration name span) else e.declare name) (earlier ++ [name])
        (redeclareErrors earlier name span) := by
      by_cases hk : name ∈ earlier
      · rw [redeclareErrors, if_pos (hn.mp hk), if_pos hk]
        exact ((Reports.refl h).report _).redeclare hk
      · rw [redeclareErrors, if_neg (fun hc => hk (hn.mpr hc)), if_neg hk]
        exact (Reports.refl h).declare name
    have hrest := hstep.trans (ih hstep.knows)
    rwa [List.append_assoc] at hrest

theorem lowerBody_reports (fs : List Function) (f : Function) (e : Emitter) :
    e.Reports (e.lowerBody (signaturesOf fs) f.name f.params f.body f.span) []
      (f.errors fs) := by
  have h₀ : e.Reports { e with slots := [] } [] [] := ⟨by simp, by intro name; rfl⟩
  have hp := h₀.trans (declareParams_reports f.span f.params h₀.knows)
  have ha := (hp.emitWith .stackAdjust 0).later (.localCount e.bodies.length)
  have hb := ha.trans (lowerBlock_reports fs f.body ha.knows)
  exact ⟨hb.list, by intro name; rfl⟩

theorem lowerFunctions_reports (fs : List Function) (gs : List Function) {e : Emitter}
    (h : e.Knows []) :
    e.Reports (e.lowerFunctions (signaturesOf fs) gs) []
      (gs.flatMap (Function.errors fs)) := by
  induction gs generalizing e with
  | nil => exact Reports.refl h
  | cons g gs ih =>
    have hg := lowerBody_reports fs g e
    exact hg.trans (ih hg.knows)

end Emitter

/-- Which names were seen matters, not how often. -/
theorem duplicateFunctions_eq (fs : List Function) {seen earlier : List String}
    (h : ∀ name, name ∈ seen ↔ name ∈ earlier) :
    duplicateFunctions seen fs = functionErrors earlier fs := by
  induction fs generalizing seen earlier with
  | nil => rfl
  | cons f fs ih =>
    unfold duplicateFunctions functionErrors
    by_cases hf : f.name ∈ earlier
    · have hs : seen.contains f.name = true := by simpa using (h f.name).mpr hf
      rw [if_pos hs, if_pos hf, @ih seen (earlier ++ [f.name])]
      · rfl
      · intro name
        rw [h name, List.mem_append, List.mem_singleton]
        exact ⟨Or.inl, fun hc => hc.elim id (fun he => he ▸ hf)⟩
    · have hs : ¬ seen.contains f.name = true := by simpa using fun hc => hf ((h f.name).mp hc)
      rw [if_neg hs, if_neg hf, @ih (f.name :: seen) (earlier ++ [f.name])]
      · rfl
      · intro name
        rw [List.mem_cons, List.mem_append, List.mem_singleton, h name, or_comm]

namespace Program

def opening (p : Program) : Emitter :=
  { diagnostics := (duplicateFunctions [] p.functions).toArray }

theorem emission_eq (p : Program) :
    p.emission = p.opening.lowerFunctions (signaturesOf p.functions) p.bodies := rfl

theorem diagnostics_emission (p : Program) : p.emission.diagnostics.toList = p.errors := by
  have hknows : p.opening.Knows [] := fun name => Iff.rfl
  have h := Emitter.lowerFunctions_reports p.functions p.bodies hknows
  rw [emission_eq, h.list, opening, duplicateFunctions_eq p.functions (fun name => Iff.rfl)]
  rfl

/-- Compilation fails exactly when the check finds something, and reports what the check finds. -/
theorem compile_reports_errors (p : Program) :
    (∀ ds, p.compile = .error ds ↔ p.errors ≠ [] ∧ ds = p.errors) ∧
      ((∃ im, p.compile = .ok im) ↔ p.errors = []) := by
  have hd := p.diagnostics_emission
  unfold compile Emitter.finish
  by_cases he : p.errors = []
  · have hempty : p.emission.diagnostics.isEmpty = true := by
      simpa [he] using hd
    simp [hempty, he]
  · have hempty : ¬ p.emission.diagnostics.isEmpty = true := by
      intro hc
      apply he
      rw [← hd, Array.isEmpty_iff.mp hc]
    rw [if_neg hempty, hd]
    constructor
    · intro ds
      rw [Except.error.injEq]
      exact ⟨fun h => ⟨he, h.symm⟩, fun h => h.2.symm⟩
    · simp [he]

end Program

end Wordcode
