import Mathlib.Data.List.Forall2
import Wordcode.Proofs.Emission

/-!
Programs under other names. Main statement: names and positions carry no meaning for compilation
beyond telling which names are the same.
-/

namespace Wordcode

/-- Other names for variables and for functions. Different names stay different. -/
structure Renaming where
  var : String → String
  fn : String → String
  var_injective : Function.Injective var
  fn_injective : Function.Injective fn

def Renaming.refl : Renaming := ⟨id, id, Function.injective_id, Function.injective_id⟩

mutual
def Operand.relabel (r : Renaming) : Operand → Operand
  | .int value => .int value
  | .var name _ => .var (r.var name) {}
  | .unary op x => .unary op (x.relabel r)
  | .chain first rest => .chain (first.relabel r) (Links.relabel r rest)
  | .group first rest => .group (first.relabel r) (Links.relabel r rest)
  | .call name args _ => .call (r.fn name) (Operand.relabelAll r args) {}
def Links.relabel (r : Renaming) : Links → Links
  | [] => []
  | (op, x) :: rest => (op, x.relabel r) :: Links.relabel r rest
def Operand.relabelAll (r : Renaming) : List Operand → List Operand
  | [] => []
  | x :: rest => x.relabel r :: Operand.relabelAll r rest
end

mutual
def Statement.relabel (r : Renaming) : Statement → Statement
  | .declare name x _ => .declare (r.var name) (x.relabel r) {}
  | .assign name x _ => .assign (r.var name) (x.relabel r) {}
  | .cond test yes none _ => .cond (test.relabel r) (Block.relabel r yes) none {}
  | .cond test yes (some no) _ =>
    .cond (test.relabel r) (Block.relabel r yes) (some (Block.relabel r no)) {}
  | .loop test body _ => .loop (test.relabel r) (Block.relabel r body) {}
  | .discard x _ => .discard (x.relabel r) {}
  | .ret x _ => .ret (x.relabel r) {}
def Block.relabel (r : Renaming) : Block → Block
  | [] => []
  | s :: rest => s.relabel r :: Block.relabel r rest
end

def Function.relabel (r : Renaming) (f : Function) : Function where
  name := r.fn f.name
  params := f.params.map r.var
  body := Block.relabel r f.body

def Program.relabel (r : Renaming) (p : Program) : Program where
  functions := p.functions.map (Function.relabel r)
  main := Block.relabel r p.main

namespace Diagnostic

def relabel (r : Renaming) : Diagnostic → Diagnostic
  | undeclaredVariable name _ => undeclaredVariable (r.var name) {}
  | duplicateDeclaration name _ => duplicateDeclaration (r.var name) {}
  | duplicateFunction name _ => duplicateFunction (r.fn name) {}
  | undefinedFunction name _ => undefinedFunction (r.fn name) {}
  | arityMismatch name expected found _ => arityMismatch (r.fn name) expected found {}

inductive Renamed (r : Renaming) : Diagnostic → Diagnostic → Prop where
  | undeclaredVariable (name : String) (s s' : Span) :
      Renamed r (.undeclaredVariable name s) (.undeclaredVariable (r.var name) s')
  | duplicateDeclaration (name : String) (s s' : Span) :
      Renamed r (.duplicateDeclaration name s) (.duplicateDeclaration (r.var name) s')
  | duplicateFunction (name : String) (s s' : Span) :
      Renamed r (.duplicateFunction name s) (.duplicateFunction (r.fn name) s')
  | undefinedFunction (name : String) (s s' : Span) :
      Renamed r (.undefinedFunction name s) (.undefinedFunction (r.fn name) s')
  | arityMismatch (name : String) (expected found : Nat) (s s' : Span) :
      Renamed r (.arityMismatch name expected found s)
        (.arityMismatch (r.fn name) expected found s')

theorem renamed_of_relabel {r : Renaming} {d d' : Diagnostic}
    (h : d'.relabel .refl = d.relabel r) : d.Renamed r d' := by
  cases d <;> cases d' <;> cases h <;> constructor

theorem forall₂_renamed {r : Renaming} {ds ds' : List Diagnostic}
    (h : ds'.map (relabel .refl) = ds.map (relabel r)) : List.Forall₂ (Renamed r) ds ds' := by
  have hall : List.Forall₂ Eq (ds'.map (relabel .refl)) (ds.map (relabel r)) := by
    rw [h, List.forall₂_same]
    exact fun _ _ => rfl
  rw [List.forall₂_map_left_iff, List.forall₂_map_right_iff] at hall
  exact (hall.imp fun _ _ => renamed_of_relabel).flip

end Diagnostic

def Body.relabel (r : Renaming) (b : Body) : Body :=
  { b with name := r.fn b.name, locals := b.locals.map r.var }

/-- The body of the main block comes first and keeps its name. -/
def Body.relabelAll (r : Renaming) : List Body → List Body
  | [] => []
  | main :: rest => { main with locals := main.locals.map r.var } :: rest.map (Body.relabel r)

def Image.relabel (r : Renaming) (im : Image) : Image :=
  { im with bodies := Body.relabelAll r im.bodies }

variable (r : Renaming)

section Check

theorem useErrors_relabel (declared : List String) (name : String) (span : Span) :
    useErrors (declared.map r.var) (r.var name) {} =
      (useErrors declared name span).map (Diagnostic.relabel r) := by
  simp only [useErrors, List.mem_map_of_injective r.var_injective]
  split <;> rfl

theorem redeclareErrors_relabel (declared : List String) (name : String) (span : Span) :
    redeclareErrors (declared.map r.var) (r.var name) {} =
      (redeclareErrors declared name span).map (Diagnostic.relabel r) := by
  simp only [redeclareErrors, List.mem_map_of_injective r.var_injective]
  split <;> rfl

/-- A function is found under its other name where it was found before. -/
theorem named_relabel (name : String) :
    (fun f : Function => f.name == r.fn name) ∘ Function.relabel r = fun f => f.name == name := by
  funext f
  exact r.fn_injective.beq_eq

theorem callErrors_relabel (fs : List Function) (name : String) (argc : Nat) (span : Span) :
    callErrors (fs.map (Function.relabel r)) (r.fn name) argc {} =
      (callErrors fs name argc span).map (Diagnostic.relabel r) := by
  unfold callErrors
  rw [List.find?_map, named_relabel]
  cases fs.find? (·.name == name) with
  | none => rfl
  | some f =>
    simp only [Option.map_some, Function.relabel, List.length_map]
    split <;> rfl

theorem Operand.length_relabelAll (xs : List Operand) :
    (Operand.relabelAll r xs).length = xs.length := by
  induction xs with
  | nil => rfl
  | cons x rest ih => rw [Operand.relabelAll, List.length_cons, List.length_cons, ih]

mutual
theorem Operand.errors_relabel (fs : List Function) (declared : List String) : (x : Operand) →
    (x.relabel r).errors (fs.map (Function.relabel r)) (declared.map r.var) =
      (x.errors fs declared).map (Diagnostic.relabel r)
  | .int _ => rfl
  | .var name span => useErrors_relabel r declared name span
  | .unary _ x => x.errors_relabel fs declared
  | .chain first rest | .group first rest => by
    simp only [Operand.relabel, Operand.errors, List.map_append, first.errors_relabel fs declared,
      Links.errors_relabel fs declared rest]
  | .call name args span => by
    simp only [Operand.relabel, Operand.errors, List.map_append,
      Operand.errorsAll_relabel fs declared args, Operand.length_relabelAll,
      callErrors_relabel r fs name args.length span]
theorem Links.errors_relabel (fs : List Function) (declared : List String) : (rest : Links) →
    Links.errors (fs.map (Function.relabel r)) (declared.map r.var) (Links.relabel r rest) =
      (Links.errors fs declared rest).map (Diagnostic.relabel r)
  | [] => rfl
  | (_, x) :: rest => by
    simp only [Links.relabel, Links.errors, List.map_append, x.errors_relabel fs declared,
      Links.errors_relabel fs declared rest]
theorem Operand.errorsAll_relabel (fs : List Function) (declared : List String) :
    (xs : List Operand) →
    Operand.errorsAll (fs.map (Function.relabel r)) (declared.map r.var)
        (Operand.relabelAll r xs) =
      (Operand.errorsAll fs declared xs).map (Diagnostic.relabel r)
  | [] => rfl
  | x :: rest => by
    simp only [Operand.relabelAll, Operand.errorsAll, List.map_append, x.errors_relabel fs declared,
      Operand.errorsAll_relabel fs declared rest]
end

mutual
theorem Statement.declares_relabel : (s : Statement) →
    (s.relabel r).declares = s.declares.map r.var
  | .declare _ _ _ | .assign _ _ _ | .discard _ _ | .ret _ _ => rfl
  | .cond _ yes none _ => Block.declares_relabel yes
  | .cond _ yes (some no) _ => by
    simp only [Statement.relabel, Statement.declares, List.map_append, Block.declares_relabel yes,
      Block.declares_relabel no]
  | .loop _ body _ => Block.declares_relabel body
theorem Block.declares_relabel : (b : Block) →
    Block.declares (Block.relabel r b) = (Block.declares b).map r.var
  | [] => rfl
  | s :: rest => by
    simp only [Block.relabel, Block.declares, List.map_append, s.declares_relabel,
      Block.declares_relabel rest]
end

mutual
theorem Statement.errors_relabel (fs : List Function) : (s : Statement) →
    (declared : List String) →
    (s.relabel r).errors (fs.map (Function.relabel r)) (declared.map r.var) =
      (s.errors fs declared).map (Diagnostic.relabel r)
  | .declare name x span, declared => by
    simp only [Statement.relabel, Statement.errors, List.map_append, x.errors_relabel,
      redeclareErrors_relabel r declared name span]
  | .assign name x span, declared => by
    simp only [Statement.relabel, Statement.errors, List.map_append, x.errors_relabel,
      useErrors_relabel r declared name span]
  | .cond test yes none _, declared => by
    simp only [Statement.relabel, Statement.errors, List.map_append, test.errors_relabel,
      Block.errors_relabel fs yes]
  | .cond test yes (some no) _, declared => by
    simp only [Statement.relabel, Statement.errors, test.errors_relabel,
      Block.errors_relabel fs yes, Block.declares_relabel, ← List.map_append,
      Block.errors_relabel fs no]
  | .loop test body _, declared => by
    simp only [Statement.relabel, Statement.errors, List.map_append, test.errors_relabel,
      Block.errors_relabel fs body]
  | .discard x _, declared | .ret x _, declared => x.errors_relabel r fs declared
theorem Block.errors_relabel (fs : List Function) : (b : Block) → (declared : List String) →
    Block.errors (fs.map (Function.relabel r)) (declared.map r.var) (Block.relabel r b) =
      (Block.errors fs declared b).map (Diagnostic.relabel r)
  | [], _ => rfl
  | s :: rest, declared => by
    simp only [Block.relabel, Block.errors, s.errors_relabel fs, Statement.declares_relabel,
      ← List.map_append, Block.errors_relabel fs rest]
end

theorem paramErrors_relabel (span : Span) (params earlier : List String) :
    paramErrors {} (earlier.map r.var) (params.map r.var) =
      (paramErrors span earlier params).map (Diagnostic.relabel r) := by
  induction params generalizing earlier with
  | nil => rfl
  | cons name rest ih =>
    have hrest := ih (earlier ++ [name])
    rw [List.map_append] at hrest
    simp only [List.map_cons, paramErrors, List.map_append,
      redeclareErrors_relabel r earlier name span]
    rw [← hrest]
    rfl

theorem Function.errors_relabel (fs : List Function) (f : Function) :
    (f.relabel r).errors (fs.map (Function.relabel r)) =
      (f.errors fs).map (Diagnostic.relabel r) := by
  rw [Function.errors, Function.errors, List.map_append, ← Block.errors_relabel,
    ← paramErrors_relabel]
  rfl

theorem functionErrors_relabel (fs : List Function) (earlier : List String) :
    functionErrors (earlier.map r.fn) (fs.map (Function.relabel r)) =
      (functionErrors earlier fs).map (Diagnostic.relabel r) := by
  induction fs generalizing earlier with
  | nil => rfl
  | cons f fs ih =>
    have hrest := ih (earlier ++ [f.name])
    rw [List.map_append] at hrest
    simp only [List.map_cons, functionErrors, List.map_append, ← hrest, Function.relabel,
      List.mem_map_of_injective r.fn_injective]
    split <;> rfl

theorem Program.errors_relabel (p : Program) :
    (p.relabel r).errors = p.errors.map (Diagnostic.relabel r) := by
  have hnames := functionErrors_relabel r p.functions []
  have hmain := Function.errors_relabel r p.functions p.mainFunction
  have hrest : (p.functions.map (Function.relabel r)).flatMap
      (Function.errors (p.functions.map (Function.relabel r))) =
        (p.functions.flatMap (Function.errors p.functions)).map (Diagnostic.relabel r) := by
    rw [List.flatMap_map, List.map_flatMap]
    simp only [Function.errors_relabel]
  rw [Program.errors, Program.errors, Program.bodies, Program.bodies, List.flatMap_cons,
    List.flatMap_cons, List.map_append, List.map_append, ← hnames, ← hmain, ← hrest]
  rfl

end Check

section Layout

structure Linkage.Renamed (l l' : Linkage) : Prop where
  names : l'.names = l.names.map r.var
  target : ∀ name, l'.target (r.fn name) = l.target name

variable {r} {l l' : Linkage}

theorem Linkage.Renamed.slot (h : l.Renamed r l') (name : String) :
    l'.slot (r.var name) = l.slot name := by
  have hname : (fun other => other == r.var name) ∘ r.var = fun other => other == name := by
    funext other
    exact r.var_injective.beq_eq
  rw [Linkage.slot, Linkage.slot, h.names, List.idxOf, List.findIdx_map, hname]
  rfl

theorem Operand.width_eq_of_layout {x x' : Operand} (h : x'.layout l' = x.layout l) :
    x'.width = x.width := by
  rw [← x'.length_layout l', h, x.length_layout]

theorem Block.width_eq_of_layout {b b' : Block} (h : Block.layout l' b' = Block.layout l b) :
    Block.width b' = Block.width b := by
  rw [← Block.length_layout l' b', h, Block.length_layout]

mutual
theorem Operand.layout_relabel (h : l.Renamed r l') : (x : Operand) →
    (x.relabel r).layout l' = x.layout l
  | .int _ => rfl
  | .var name _ => by rw [Operand.relabel, Operand.layout, h.slot, Operand.layout]
  | .unary op x => by rw [Operand.relabel, Operand.layout, x.layout_relabel h, Operand.layout]
  | .chain first rest | .group first rest => by
    rw [Operand.relabel, Operand.layout, first.layout_relabel h, Links.layout_relabel h rest,
      Operand.layout]
  | .call name args _ => by
    rw [Operand.relabel, Operand.layout, Operand.layoutAll_relabel h args, h.target,
      Operand.length_relabelAll, Operand.layout]
theorem Links.layout_relabel (h : l.Renamed r l') : (rest : Links) →
    Links.layout l' (Links.relabel r rest) = Links.layout l rest
  | [] => rfl
  | (_, x) :: rest => by
    rw [Links.relabel, Links.layout, x.layout_relabel h, Links.layout_relabel h rest, Links.layout]
theorem Operand.layoutAll_relabel (h : l.Renamed r l') : (xs : List Operand) →
    Operand.layoutAll l' (Operand.relabelAll r xs) = Operand.layoutAll l xs
  | [] => rfl
  | x :: rest => by
    rw [Operand.relabelAll, Operand.layoutAll, x.layout_relabel h,
      Operand.layoutAll_relabel h rest, Operand.layoutAll]
end

mutual
theorem Statement.layout_relabel (h : l.Renamed r l') : (s : Statement) →
    (s.relabel r).layout l' = s.layout l
  | .declare name x _ | .assign name x _ => by
    rw [Statement.relabel, Statement.layout, x.layout_relabel h, h.slot, Statement.layout]
  | .cond test yes none _ => by
    have hyes := Block.layout_relabel h yes
    rw [Statement.relabel, Statement.layout, test.layout_relabel h, hyes,
      Block.width_eq_of_layout hyes, Statement.layout]
  | .cond test yes (some no) _ => by
    have hyes := Block.layout_relabel h yes
    have hno := Block.layout_relabel h no
    rw [Statement.relabel, Statement.layout, test.layout_relabel h, hyes, hno,
      Block.width_eq_of_layout hyes, Block.width_eq_of_layout hno, Statement.layout]
  | .loop test body _ => by
    have htest := test.layout_relabel h
    have hbody := Block.layout_relabel h body
    rw [Statement.relabel, Statement.layout, htest, hbody, Operand.width_eq_of_layout htest,
      Block.width_eq_of_layout hbody, Statement.layout]
  | .discard x _ | .ret x _ => by
    rw [Statement.relabel, Statement.layout, x.layout_relabel h, Statement.layout]
theorem Block.layout_relabel (h : l.Renamed r l') : (b : Block) →
    Block.layout l' (Block.relabel r b) = Block.layout l b
  | [] => rfl
  | s :: rest => by
    rw [Block.relabel, Block.layout, s.layout_relabel h, Block.layout_relabel h rest, Block.layout]
end

namespace Function

theorem names_relabel (f : Function) : (f.relabel r).names = f.names.map r.var := by
  rw [names, names, List.map_append, ← Block.declares_relabel]
  rfl

variable {target target' : String → Nat} (h : ∀ name, target' (r.fn name) = target name)

theorem width_relabel (r : Renaming) (f : Function) : (f.relabel r).width = f.width := by
  have hlinked : (⟨[], fun _ => 0⟩ : Linkage).Renamed r ⟨[], fun _ => 0⟩ := ⟨rfl, fun _ => rfl⟩
  rw [width, width, ← Block.width_eq_of_layout (Block.layout_relabel hlinked f.body)]
  rfl

include h in
theorem layout_relabel (start stop : Nat) (f : Function) :
    (f.relabel r).layout target' start stop = f.layout target start stop := by
  have hbody := Block.layout_relabel
    (show (⟨f.names, target⟩ : Linkage).Renamed r ⟨(f.relabel r).names, target'⟩ from
      ⟨f.names_relabel, h⟩) f.body
  rw [layout, layout, ← hbody, ← Block.width_eq_of_layout hbody, names_relabel, List.length_map]
  rfl

include h in
theorem layoutAll_relabel (stop start : Nat) (fs : List Function) :
    layoutAll target' stop start (fs.map (Function.relabel r)) =
      layoutAll target stop start fs := by
  induction fs generalizing start with
  | nil => rfl
  | cons f fs ih => rw [List.map_cons, layoutAll, layout_relabel h, width_relabel, ih, layoutAll]

theorem widthAll_relabel (r : Renaming) (fs : List Function) :
    widthAll (fs.map (Function.relabel r)) = widthAll fs := by
  induction fs with
  | nil => rfl
  | cons f fs ih => rw [List.map_cons, widthAll, width_relabel, ih, widthAll]

theorem placed_relabel (r : Renaming) (start : Nat) (f : Function) :
    (f.relabel r).placed start = (f.placed start).relabel r := by
  rw [placed, width_relabel, names_relabel, Body.relabel, relabel, List.length_map]
  rfl

theorem placedAll_relabel (r : Renaming) (start : Nat) (fs : List Function) :
    placedAll start (fs.map (Function.relabel r)) =
      (placedAll start fs).map (Body.relabel r) := by
  induction fs generalizing start with
  | nil => rfl
  | cons f fs ih =>
    rw [List.map_cons, placedAll, placed_relabel, width_relabel, ih, placedAll, List.map_cons]

end Function

namespace Program

variable (r) (p : Program)

theorem start_relabel (k : Nat) : (p.relabel r).start k = p.start k := by
  cases k with
  | zero => rfl
  | succ k =>
    have hmain := Function.width_relabel r p.mainFunction
    have hrest := Function.widthAll_relabel r (p.functions.take k)
    rw [List.map_take] at hrest
    rw [start, start, bodies, bodies, List.take_succ_cons, List.take_succ_cons, Function.widthAll,
      Function.widthAll, ← hmain, ← hrest]
    rfl

theorem width_relabel : (p.relabel r).width = p.width := by
  have hmain := Function.width_relabel r p.mainFunction
  have hrest := Function.widthAll_relabel r p.functions
  rw [width, width, bodies, bodies, Function.widthAll, Function.widthAll, ← hmain, ← hrest]
  rfl

theorem target_relabel (name : String) : (p.relabel r).target (r.fn name) = p.target name := by
  have hfound : (p.relabel r).functions.findIdx? (·.name == r.fn name) =
      p.functions.findIdx? (·.name == name) := by
    rw [relabel, List.findIdx?_map, named_relabel]
  simp only [target, hfound, start_relabel]

theorem layout_relabel : (p.relabel r).layout = p.layout := by
  have hmain := Function.layout_relabel (p.target_relabel r) 0 p.width p.mainFunction
  have hwidth := Function.width_relabel r p.mainFunction
  have hrest := Function.layoutAll_relabel (p.target_relabel r) p.width
    (0 + p.mainFunction.width) p.functions
  rw [layout, layout, width_relabel, bodies, bodies, Function.layoutAll, Function.layoutAll,
    ← hmain, ← hrest, ← hwidth]
  rfl

theorem placedAll_relabel :
    Function.placedAll 0 (p.relabel r).bodies =
      Body.relabelAll r (Function.placedAll 0 p.bodies) := by
  have hmain := congrArg (fun b => { b with name := mainName })
    (Function.placed_relabel r 0 p.mainFunction)
  have hwidth : (p.relabel r).mainFunction.width = p.mainFunction.width :=
    Function.width_relabel r p.mainFunction
  have hrest := Function.placedAll_relabel r (0 + p.mainFunction.width) p.functions
  rw [bodies, Function.placedAll, hwidth]
  exact List.cons_eq_cons.mpr ⟨hmain, hrest⟩

end Program

end Layout

theorem Body.relabel_refl (b : Body) : b.relabel .refl = b := by
  simp [Body.relabel, Renaming.refl]

theorem Image.relabel_refl (im : Image) : im.relabel .refl = im := by
  obtain ⟨code, entry, bodies⟩ := im
  cases bodies with
  | nil => rfl
  | cons main rest =>
    have hrest : rest.map (Body.relabel .refl) = rest := by
      rw [funext Body.relabel_refl, List.map_id']
    have hmain : main.locals.map Renaming.refl.var = main.locals := List.map_id _
    rw [Image.relabel, Body.relabelAll, hmain, hrest]

namespace Program

/-- Compiling commutes with renaming. -/
theorem compile_relabel (p : Program) :
    (p.relabel r).compile =
      match p.compile with
      | .ok im => .ok (im.relabel r)
      | .error ds => .error (ds.map (Diagnostic.relabel r)) := by
  rw [compile_eq_layout, compile_eq_layout, errors_relabel, layout_relabel, placedAll_relabel]
  simp only [List.map_eq_nil_iff]
  split <;> rfl

/-- Names and positions carry no meaning. Let `p'` be `p` with its variables and its functions
renamed and with any positions. Then both compile or neither does; the images differ in the names
alone, and so do the errors, one by one, but for their positions. -/
theorem compile_renamed (r : Renaming) (p p' : Program) (h : p'.relabel .refl = p.relabel r) :
    ((∃ im, p'.compile = .ok im) ↔ ∃ im, p.compile = .ok im) ∧
    (∀ im, p.compile = .ok im → p'.compile = .ok (im.relabel r)) ∧
    ∀ ds, p.compile = .error ds →
      ∃ ds', p'.compile = .error ds' ∧ List.Forall₂ (Diagnostic.Renamed r) ds ds' := by
  have hboth := compile_relabel r p
  rw [← h, compile_relabel .refl p'] at hboth
  cases hp : p.compile with
  | ok im =>
    cases hp' : p'.compile with
    | ok im' =>
      simp only [hp, hp', Image.relabel_refl, Except.ok.injEq] at hboth
      simp [hboth]
    | error ds' => simp [hp, hp'] at hboth
  | error ds =>
    cases hp' : p'.compile with
    | ok im' => simp [hp, hp'] at hboth
    | error ds' =>
      simp only [hp, hp', Except.error.injEq] at hboth
      simp [Diagnostic.forall₂_renamed hboth]

end Program

def Renaming.tagged : Renaming where
  var := ("v_" ++ ·)
  fn := ("f_" ++ ·)
  var_injective := fun a b h => String.toList_injective (by simpa using congrArg String.toList h)
  fn_injective := fun a b h => String.toList_injective (by simpa using congrArg String.toList h)

def Sample.countdown (name fn : String) (span : Span) (args : List Operand) : Program :=
  { functions := [{
      name := fn
      params := [name]
      body := [
        .cond (.var name span) [.ret (.call fn [bin (.var name span) .sub (int 1)] span) span] none
          span,
        .ret (.var name span) span]
      span }]
    main := [.declare name (int 3) span, .ret (.call fn args span) span] }

/-- The function and the variables share their name. The second program lacks an argument. -/
theorem Program.compile_renamed_countdown :
    (∃ im, (Sample.countdown "n" "n" {} [.var "n" {}]).compile = .ok im ∧
      (Sample.countdown "v_n" "f_n" ⟨3, 7⟩ [.var "v_n" ⟨8, 9⟩]).relabel .refl =
        (Sample.countdown "n" "n" {} [.var "n" {}]).relabel .tagged ∧
      (Sample.countdown "v_n" "f_n" ⟨3, 7⟩ [.var "v_n" ⟨8, 9⟩]).compile =
        .ok (im.relabel .tagged)) ∧
    ∃ ds, (Sample.countdown "n" "n" {} []).compile = .error ds ∧
      (Sample.countdown "v_n" "f_n" ⟨3, 7⟩ []).relabel .refl =
        (Sample.countdown "n" "n" {} []).relabel .tagged ∧
      ∃ ds', (Sample.countdown "v_n" "f_n" ⟨3, 7⟩ []).compile = .error ds' ∧
        List.Forall₂ (Diagnostic.Renamed .tagged) ds ds' :=
  ⟨⟨_, rfl, rfl, (compile_renamed .tagged (Sample.countdown "n" "n" {} [.var "n" {}]) _ rfl).2.1 _
      rfl⟩,
    ⟨_, rfl, rfl, (compile_renamed .tagged (Sample.countdown "n" "n" {} []) _ rfl).2.2 _ rfl⟩⟩

end Wordcode
