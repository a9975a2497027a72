import Wordcode.Proofs.OperandText

/-!
The canonical text of programs. Main statement: programs in normal form whose names are identifiers
have the same text only if they are the same but for positions.
-/

namespace Wordcode

mutual
def Statement.isNormal : Statement → Bool
  | .declare _ x _ | .assign _ x _ | .discard x _ | .ret x _ => x.isNormal
  | .cond test yes none _ => test.isNormal && Block.isNormal yes
  | .cond test yes (some no) _ => test.isNormal && Block.isNormal yes && Block.isNormal no
  | .loop test body _ => test.isNormal && Block.isNormal body
def Block.isNormal : Block → Bool
  | [] => true
  | s :: rest => s.isNormal && Block.isNormal rest
end

def Program.isNormal (p : Program) : Bool :=
  p.functions.all (Block.isNormal ·.body) && Block.isNormal p.main

def Statement.Canonical (s : Statement) : Prop := s.isNormal = true ∧ Spelled s.mentions

def Block.Canonical (b : Block) : Prop := Block.isNormal b = true ∧ Spelled (Block.mentions b)

def Function.Canonical (f : Function) : Prop :=
  Block.isNormal f.body = true ∧ Spelled f.mentions

section Parts

variable {name : String} {x : Operand} {span : Span} {s : Statement} {b yes : Block}
  {no : Option Block} {f : Function}

theorem Statement.canonical_declare :
    (Statement.declare name x span).Canonical ↔ isIdentifier name = true ∧ x.Canonical := by
  simp only [Statement.Canonical, Operand.Canonical, isNormal, mentions, spelled_cons]
  grind

theorem Statement.canonical_assign :
    (Statement.assign name x span).Canonical ↔ isIdentifier name = true ∧ x.Canonical := by
  simp only [Statement.Canonical, Operand.Canonical, isNormal, mentions, spelled_cons]
  grind

theorem Statement.canonical_cond :
    (Statement.cond x yes no span).Canonical ↔
      x.Canonical ∧ Block.Canonical yes ∧ ∀ b ∈ no, Block.Canonical b := by
  cases no <;>
    simp only [Statement.Canonical, Operand.Canonical, Block.Canonical, isNormal, mentions,
      spelled_append, Bool.and_eq_true] <;> grind

theorem Statement.canonical_loop :
    (Statement.loop x b span).Canonical ↔ x.Canonical ∧ Block.Canonical b := by
  simp only [Statement.Canonical, Operand.Canonical, Block.Canonical, isNormal, mentions,
    spelled_append, Bool.and_eq_true]
  grind

theorem Statement.canonical_discard : (Statement.discard x span).Canonical ↔ x.Canonical := by
  rw [Statement.Canonical, isNormal, mentions, Operand.Canonical]

theorem Statement.canonical_ret : (Statement.ret x span).Canonical ↔ x.Canonical := by
  rw [Statement.Canonical, isNormal, mentions, Operand.Canonical]

theorem Block.canonical_cons :
    Block.Canonical (s :: b) ↔ s.Canonical ∧ Block.Canonical b := by
  simp only [Statement.Canonical, Block.Canonical, isNormal, mentions, spelled_append,
    Bool.and_eq_true]
  grind

theorem Function.canonical_iff :
    f.Canonical ↔ isIdentifier f.name = true ∧ Spelled f.params ∧ Block.Canonical f.body := by
  simp only [Function.Canonical, Block.Canonical, mentions, spelled_append, spelled_cons,
    List.cons_append]
  grind

end Parts

inductive Shape where
  | declare | assign | cond | loop | discard | ret | function | other
deriving DecidableEq

def Statement.shape : Statement → Shape
  | .declare _ _ _ => .declare
  | .assign _ _ _ => .assign
  | .cond _ _ _ _ => .cond
  | .loop _ _ _ => .loop
  | .discard _ _ => .discard
  | .ret _ _ => .ret

def Shape.ofKeyword (word : List Char) : Shape :=
  if word = ['v', 'a', 'r'] then .declare
  else if word = ['i', 'f'] then .cond
  else if word = ['w', 'h', 'i', 'l', 'e'] then .loop
  else if word = ['r', 'e', 't', 'u', 'r', 'n'] then .ret
  else if word = ['f', 'u', 'n', 'c'] then .function
  else .other

/-- What a text starts with. Keywords are no reserved words: a keyword with an equality sign behind
it is the name of an assigned variable. -/
def Shape.ofText (text : List Char) : Shape :=
  match text.dropWhile isNameChar with
  | ' ' :: rest =>
    if rest.head? = some '=' then .assign else .ofKeyword (text.takeWhile isNameChar)
  | '}' :: _ => .other
  | _ => .discard

section Shapes

variable {r : List Char}

theorem Shape.ofText_keyword {word : List Char} (hword : word.all isNameChar = true)
    (hr : r.head? ≠ some '=') : ofText (word ++ ' ' :: r) = ofKeyword word := by
  have hstops : Stops isNameChar (' ' :: r) := stops_cons (by decide)
  simp [ofText, dropWhile_of_stops hword hstops, takeWhile_of_stops hword hstops, hr]

theorem Shape.ofText_assign {name : String} (hname : isIdentifier name = true) :
    ofText (name.toList ++ ' ' :: '=' :: r) = .assign := by
  have hstops : Stops isNameChar (' ' :: '=' :: r) := stops_cons (by decide)
  simp [ofText, dropWhile_of_stops (all_of_isIdentifier hname) hstops]

theorem Operand.head?_text_ne {x : Operand} (hx : x.Canonical) :
    (x.text.toList ++ r).head? ≠ some '=' := by
  obtain ⟨c, rest, htext, rfl | rfl | hc⟩ := x.text_starts hx
  · simp [htext]
  · simp [htext]
  · simp [htext, ne_of_class hc (by decide : isNameChar '=' = false)]

theorem head?_name_ne {name : String} (hname : isIdentifier name = true) :
    (name.toList ++ r).head? ≠ some '=' :=
  Operand.head?_text_ne (x := .var name {}) (Operand.canonical_var.mpr hname)

/-- Behind the word that an operand starts with there is no blank. -/
theorem Shape.ofText_operand {x : Operand} (hx : x.Canonical) :
    ofText (x.text.toList ++ ';' :: r) = .discard := by
  have hstops : Stops isNameChar (';' :: r) := stops_cons (by decide)
  cases x with
  | int w =>
    obtain ⟨c, rest, htext, hc, hrest⟩ | ⟨rest, htext, -⟩ := Operand.text_int_begins w
    · have hall : (c :: rest).all isNameChar = true := by
        grind [isNameChar_of_digit]
      rw [ofText, htext, dropWhile_of_stops hall hstops]
      rfl
    · simp [ofText, htext, isNameChar]
  | var name span =>
    have hname := Operand.canonical_var.mp hx
    simp [ofText, Operand.text, dropWhile_of_stops (all_of_isIdentifier hname) hstops]
  | unary op x =>
    rw [Operand.unary_append]
    simp [ofText, isNameChar]
  | chain first rest =>
    rw [Operand.chain_append]
    simp [ofText, isNameChar]
  | group first rest => exact absurd hx Operand.not_canonical_group
  | call name args span =>
    have hname := (Operand.canonical_call.mp hx).1
    have hstops : ∀ cs, Stops isNameChar ('(' :: cs) := fun cs => stops_cons (by decide)
    rw [Operand.call_append]
    simp [ofText, dropWhile_of_stops (all_of_isIdentifier hname) (hstops _)]

end Shapes

def Block.elseText : Option Block → String
  | none => ""
  | some b => " else \x7b" ++ Block.inner b ++ " \x7d"

section Equations

variable (r : List Char) (name : String) (x : Operand) (span : Span)

theorem Statement.declare_append :
    (Statement.declare name x span).text.toList ++ r =
      "var".toList ++ ' ' :: (name.toList ++ ' ' :: '=' :: ' ' :: (x.text.toList ++ ';' :: r)) := by
  simp [text]

theorem Statement.assign_append :
    (Statement.assign name x span).text.toList ++ r =
      name.toList ++ ' ' :: '=' :: ' ' :: (x.text.toList ++ ';' :: r) := by
  simp [text]

theorem Statement.cond_append (yes : Block) (no : Option Block) :
    (Statement.cond x yes no span).text.toList ++ r =
      "if".toList ++ ' ' :: '(' :: (x.text.toList ++ ')' :: ' ' :: '\x7b' ::
        ((Block.inner yes).toList ++ ' ' :: '}' :: ((Block.elseText no).toList ++ r))) := by
  cases no <;> simp [text, Block.elseText]

theorem Block.else_append (b : Block) :
    (Block.elseText (some b)).toList ++ r =
      ' ' :: ("else".toList ++ ' ' :: '\x7b' :: ((Block.inner b).toList ++ ' ' :: '}' :: r)) := by
  simp [elseText]

theorem Statement.loop_append (b : Block) :
    (Statement.loop x b span).text.toList ++ r =
      "while".toList ++ ' ' :: '(' :: (x.text.toList ++ ')' :: ' ' :: '\x7b' ::
        ((Block.inner b).toList ++ ' ' :: '}' :: r)) := by
  simp [text]

theorem Statement.discard_append :
    (Statement.discard x span).text.toList ++ r = x.text.toList ++ ';' :: r := by
  simp [text]

theorem Statement.ret_append :
    (Statement.ret x span).text.toList ++ r =
      "return".toList ++ ' ' :: (x.text.toList ++ ';' :: r) := by
  simp [text]

theorem Block.cons_append (s : Statement) (b : Block) :
    (Block.inner (s :: b)).toList ++ r =
      ' ' :: (s.text.toList ++ ((Block.inner b).toList ++ r)) := by
  simp [inner]

theorem Function.text_append (f : Function) :
    f.text.toList ++ r =
      "func".toList ++ ' ' :: (f.name.toList ++ '(' :: ((", ".intercalate f.params).toList ++
        ')' :: ' ' :: '\x7b' :: ((Block.inner f.body).toList ++ ' ' :: '}' :: r))) := by
  simp [text]

end Equations

section Shapes

variable {r r' : List Char}

theorem Statement.ofText_append {s : Statement} (hs : s.Canonical) :
    Shape.ofText (s.text.toList ++ r) = s.shape := by
  cases s with
  | declare name x span =>
    rw [declare_append]
    exact Shape.ofText_keyword (by decide) (head?_name_ne (canonical_declare.mp hs).1)
  | assign name x span =>
    rw [assign_append]
    exact Shape.ofText_assign (canonical_assign.mp hs).1
  | cond x yes no span =>
    rw [cond_append]
    exact Shape.ofText_keyword (by decide) (by simp)
  | loop x b span =>
    rw [loop_append]
    exact Shape.ofText_keyword (by decide) (by simp)
  | discard x span =>
    rw [discard_append]
    exact Shape.ofText_operand (canonical_discard.mp hs)
  | ret x span =>
    rw [ret_append]
    exact Shape.ofText_keyword (by decide) (Operand.head?_text_ne (canonical_ret.mp hs))

theorem Function.ofText_append {f : Function} (hf : f.Canonical) :
    Shape.ofText (f.text.toList ++ r) = .function := by
  rw [text_append]
  exact Shape.ofText_keyword (by decide) (head?_name_ne (canonical_iff.mp hf).1)

theorem Statement.shape_eq_of_text {s t : Statement} (hs : s.Canonical) (ht : t.Canonical)
    (h : s.text.toList ++ r = t.text.toList ++ r') : s.shape = t.shape := by
  rw [← ofText_append hs, h, ofText_append ht]

/-- A text that starts with no statement. -/
theorem Statement.text_ne_of_shape {s : Statement} (hs : s.Canonical)
    (hr' : ∀ s : Statement, Shape.ofText r' ≠ s.shape) : s.text.toList ++ r ≠ r' := by
  rintro rfl
  exact hr' s (ofText_append hs)

end Shapes

def Final (r : List Char) : Prop := ∀ s, r ≠ ' ' :: ("else".toList ++ ' ' :: '\x7b' :: s)

section Final

variable {r r' : List Char}

theorem Shape.ofText_else : ofText ("else".toList ++ ' ' :: '\x7b' :: r) = .other :=
  ofText_keyword (by decide) (by simp)

theorem Statement.text_ne_close {s : Statement} (hs : s.Canonical) :
    s.text.toList ++ r ≠ '}' :: r' := by
  refine text_ne_of_shape hs fun s => ?_
  have hother : Shape.ofText ('}' :: r') = .other := by simp [Shape.ofText, isNameChar]
  rw [hother]
  cases s <;> simp [shape]

theorem Statement.text_ne_else {s : Statement} (hs : s.Canonical) :
    s.text.toList ++ r ≠ "else".toList ++ ' ' :: '\x7b' :: r' := by
  refine text_ne_of_shape hs fun s => ?_
  rw [Shape.ofText_else]
  cases s <;> simp [shape]

/-- Within a block a statement or the closing brace follows. -/
theorem final_inner {b : Block} (hb : Block.Canonical b) :
    Final ((Block.inner b).toList ++ ' ' :: '}' :: r) := by
  intro s h
  cases b with
  | nil => simp [Block.inner] at h
  | cons t b =>
    rw [Block.cons_append] at h
    exact Statement.text_ne_else (Block.canonical_cons.mp hb).1 (List.cons.inj h).2

theorem final_newline : Final ('\n' :: r) := by
  simp [Final]

end Final

mutual
theorem Statement.text_append_inj : (s t : Statement) → s.Canonical → t.Canonical →
    {r r' : List Char} → Final r → Final r' → s.text.toList ++ r = t.text.toList ++ r' →
    s.relabel .refl = t.relabel .refl ∧ r = r'
  | .declare m x span, t, hs, ht, r, r', _, _, h => by
    have hshape := Statement.shape_eq_of_text hs ht h
    cases t with
    | declare n y span' =>
      obtain ⟨hm, hx⟩ := Statement.canonical_declare.mp hs
      obtain ⟨hn, hy⟩ := Statement.canonical_declare.mp ht
      rw [Statement.declare_append, Statement.declare_append] at h
      have hbinding := (List.cons.inj (List.append_cancel_left h)).2
      obtain ⟨hname, hxy, hrest⟩ := binding_append_inj hm hn hx hy hbinding
      exact ⟨by rw [Statement.relabel, Statement.relabel, hname, hxy], hrest⟩
    | _ => cases hshape
  | .assign m x span, t, hs, ht, r, r', _, _, h => by
    have hshape := Statement.shape_eq_of_text hs ht h
    cases t with
    | assign n y span' =>
      obtain ⟨hm, hx⟩ := Statement.canonical_assign.mp hs
      obtain ⟨hn, hy⟩ := Statement.canonical_assign.mp ht
      rw [Statement.assign_append, Statement.assign_append] at h
      obtain ⟨hname, hxy, hrest⟩ := binding_append_inj hm hn hx hy h
      exact ⟨by rw [Statement.relabel, Statement.relabel, hname, hxy], hrest⟩
    | _ => cases hshape
  | .cond x yes no span, t, hs, ht, r, r', hr, hr', h => by
    have hshape := Statement.shape_eq_of_text hs ht h
    cases t with
    | cond y yes' no' span' =>
      obtain ⟨hx, hyes, hno⟩ := Statement.canonical_cond.mp hs
      obtain ⟨hy, hyes', hno'⟩ := Statement.canonical_cond.mp ht
      rw [Statement.cond_append, Statement.cond_append] at h
      have htest := List.append_cancel_left h
      simp only [List.cons.injEq, true_and] at htest
      obtain ⟨hxy, hblock⟩ := Operand.text_cons_inj hx hy (by simp) htest
      simp only [List.cons.injEq, true_and] at hblock
      obtain ⟨hblocks, helse⟩ := Block.inner_append_inj yes yes' hyes hyes' hblock
      -- a second block on one side only would follow the whole statement on the other
      cases no with
      | none =>
        cases no' with
        | none => exact ⟨by rw [Statement.relabel, Statement.relabel, hxy, hblocks], helse⟩
        | some b' =>
          rw [Block.else_append] at helse
          exact absurd helse (hr _)
      | some b =>
        cases no' with
        | none =>
          rw [Block.else_append] at helse
          exact absurd helse.symm (hr' _)
        | some b' =>
          rw [Block.else_append, Block.else_append] at helse
          have hinner := List.append_cancel_left (List.cons.inj helse).2
          simp only [List.cons.injEq, true_and] at hinner
          obtain ⟨hb, hrest⟩ := Block.inner_append_inj b b' (hno b rfl) (hno' b' rfl) hinner
          exact ⟨by rw [Statement.relabel, Statement.relabel, hxy, hblocks, hb], hrest⟩
    | _ => cases hshape
  | .loop x b span, t, hs, ht, r, r', _, _, h => by
    have hshape := Statement.shape_eq_of_text hs ht h
    cases t with
    | loop y b' span' =>
      obtain ⟨hx, hb⟩ := Statement.canonical_loop.mp hs
      obtain ⟨hy, hb'⟩ := Statement.canonical_loop.mp ht
      rw [Statement.loop_append, Statement.loop_append] at h
      have htest := List.append_cancel_left h
      simp only [List.cons.injEq, true_and] at htest
      obtain ⟨hxy, hblock⟩ := Operand.text_cons_inj hx hy (by simp) htest
      simp only [List.cons.injEq, true_and] at hblock
      obtain ⟨hblocks, hrest⟩ := Block.inner_append_inj b b' hb hb' hblock
      exact ⟨by rw [Statement.relabel, Statement.relabel, hxy, hblocks], hrest⟩
    | _ => cases hshape
  | .discard x span, t, hs, ht, r, r', _, _, h => by
    have hshape := Statement.shape_eq_of_text hs ht h
    cases t with
    | discard y span' =>
      rw [Statement.discard_append, Statement.discard_append] at h
      obtain ⟨hxy, hrest⟩ := Operand.text_cons_inj (Statement.canonical_discard.mp hs)
        (Statement.canonical_discard.mp ht) (by simp) h
      exact ⟨by rw [Statement.relabel, Statement.relabel, hxy], hrest⟩
    | _ => cases hshape
  | .ret x span, t, hs, ht, r, r', _, _, h => by
    have hshape := Statement.shape_eq_of_text hs ht h
    cases t with
    | ret y span' =>
      rw [Statement.ret_append, Statement.ret_append] at h
      have hvalue := (List.cons.inj (List.append_cancel_left h)).2
      obtain ⟨hxy, hrest⟩ := Operand.text_cons_inj (Statement.canonical_ret.mp hs)
        (Statement.canonical_ret.mp ht) (by simp) hvalue
      exact ⟨by rw [Statement.relabel, Statement.relabel, hxy], hrest⟩
    | _ => cases hshape
theorem Block.inner_append_inj : (a b : Block) → Block.Canonical a → Block.Canonical b →
    {r r' : List Char} →
    (Block.inner a).toList ++ ' ' :: '}' :: r = (Block.inner b).toList ++ ' ' :: '}' :: r' →
    Block.relabel .refl a = Block.relabel .refl b ∧ r = r'
  | [], [], _, _, r, r', h => by simpa [Block.inner] using h
  | [], t :: b, _, hb, r, r', h => by
    rw [Block.cons_append] at h
    exact absurd (List.cons.inj h).2.symm (Statement.text_ne_close (Block.canonical_cons.mp hb).1)
  | s :: a, [], ha, _, r, r', h => by
    rw [Block.cons_append] at h
    exact absurd (List.cons.inj h).2 (Statement.text_ne_close (Block.canonical_cons.mp ha).1)
  | s :: a, t :: b, ha, hb, r, r', h => by
    obtain ⟨hs, ha⟩ := Block.canonical_cons.mp ha
    obtain ⟨ht, hb⟩ := Block.canonical_cons.mp hb
    rw [Block.cons_append, Block.cons_append] at h
    obtain ⟨hst, htail⟩ :=
      s.text_append_inj t hs ht (final_inner ha) (final_inner hb) (List.cons.inj h).2
    obtain ⟨hblocks, hrest⟩ := Block.inner_append_inj a b ha hb htail
    exact ⟨by rw [Block.relabel, Block.relabel, hst, hblocks], hrest⟩
end

theorem Function.text_append_inj {f g : Function} {r r' : List Char} (hf : f.Canonical)
    (hg : g.Canonical) (h : f.text.toList ++ r = g.text.toList ++ r') :
    f.relabel .refl = g.relabel .refl ∧ r = r' := by
  obtain ⟨hfname, hfparams, hfbody⟩ := canonical_iff.mp hf
  obtain ⟨hgname, hgparams, hgbody⟩ := canonical_iff.mp hg
  rw [text_append, text_append] at h
  obtain ⟨hname, hparams⟩ := name_append_inj hfname hgname (stops_cons (by decide))
    (stops_cons (by decide)) (List.cons.inj (List.append_cancel_left h)).2
  obtain ⟨hparams, hbody⟩ := params_append_inj hfparams hgparams (List.cons.inj hparams).2
  simp only [List.cons.injEq, true_and] at hbody
  obtain ⟨hbody, hrest⟩ := Block.inner_append_inj f.body g.body hfbody hgbody hbody
  exact ⟨by rw [relabel, relabel, hname, hparams, hbody], hrest⟩

section Lines

variable {f : Function} {s : Statement} {fs gs : List Function} {a b : Block}

def lines (fs : List Function) (b : Block) : List Char :=
  (fs.flatMap fun f => f.text.toList ++ ['\n']) ++ b.flatMap fun s => s.text.toList ++ ['\n']

theorem Program.toList_text (p : Program) : p.text.toList = lines p.functions p.main := by
  simp [text, lines, List.flatMap_map]

theorem lines_function : lines (f :: fs) b = f.text.toList ++ '\n' :: lines fs b := by
  simp [lines]

theorem lines_statement : lines [] (s :: b) = s.text.toList ++ '\n' :: lines [] b := by
  simp [lines]

/-- A function is no statement. -/
theorem lines_function_ne (hf : f.Canonical) (hb : Block.Canonical b) :
    lines (f :: fs) a ≠ lines [] b := by
  rw [lines_function]
  cases b with
  | nil => simp [lines]
  | cons s b =>
    rw [lines_statement]
    refine (Statement.text_ne_of_shape (Block.canonical_cons.mp hb).1 fun s => ?_).symm
    rw [Function.ofText_append hf]
    cases s <;> simp [Statement.shape]

theorem statement_lines_inj (ha : Block.Canonical a) (hb : Block.Canonical b)
    (h : lines [] a = lines [] b) : Block.relabel .refl a = Block.relabel .refl b := by
  induction a generalizing b with
  | nil =>
    cases b with
    | nil => rfl
    | cons t b => simp [lines] at h
  | cons s a ih =>
    cases b with
    | nil => simp [lines] at h
    | cons t b =>
      obtain ⟨hs, ha⟩ := Block.canonical_cons.mp ha
      obtain ⟨ht, hb⟩ := Block.canonical_cons.mp hb
      rw [lines_statement, lines_statement] at h
      obtain ⟨hst, hrest⟩ := s.text_append_inj t hs ht final_newline final_newline h
      rw [Block.relabel, Block.relabel, hst, ih ha hb (List.cons.inj hrest).2]

theorem lines_inj (hf : ∀ f ∈ fs, f.Canonical) (hg : ∀ g ∈ gs, g.Canonical)
    (ha : Block.Canonical a) (hb : Block.Canonical b) (h : lines fs a = lines gs b) :
    fs.map (Function.relabel .refl) = gs.map (Function.relabel .refl) ∧
      Block.relabel .refl a = Block.relabel .refl b := by
  induction fs generalizing gs with
  | nil =>
    cases gs with
    | nil => exact ⟨rfl, statement_lines_inj ha hb h⟩
    | cons g gs => exact absurd h.symm (lines_function_ne (hg g List.mem_cons_self) ha)
  | cons f fs ih =>
    cases gs with
    | nil => exact absurd h (lines_function_ne (hf f List.mem_cons_self) hb)
    | cons g gs =>
      rw [List.forall_mem_cons] at hf hg
      rw [lines_function, lines_function] at h
      obtain ⟨hfg, hrest⟩ := Function.text_append_inj hf.1 hg.1 h
      obtain ⟨hmap, hmain⟩ := ih hf.2 hg.2 (List.cons.inj hrest).2
      exact ⟨by rw [List.map_cons, List.map_cons, hfg, hmap], hmain⟩

end Lines

theorem Program.canonical_parts {p : Program} (hp : p.isNormal = true)
    (hnames : ∀ name ∈ p.mentions, isIdentifier name = true) :
    (∀ f ∈ p.functions, f.Canonical) ∧ Block.Canonical p.main := by
  simp only [isNormal, Bool.and_eq_true, List.all_eq_true] at hp
  have hspelled : Spelled (p.functions.flatMap Function.mentions ++ Block.mentions p.main) := hnames
  obtain ⟨hfs, hmain⟩ := spelled_append.mp hspelled
  refine ⟨fun f hf => ⟨hp.1 f hf, fun name hname => ?_⟩, hp.2, hmain⟩
  exact hfs name (List.mem_flatMap.mpr ⟨f, hf, hname⟩)

/-- Programs in normal form whose names are identifiers differ in positions at most if their texts
are equal. -/
theorem Program.relabel_eq_of_text {p q : Program} (hp : p.isNormal = true) (hq : q.isNormal = true)
    (hpnames : ∀ name ∈ p.mentions, isIdentifier name = true)
    (hqnames : ∀ name ∈ q.mentions, isIdentifier name = true) (h : p.text = q.text) :
    p.relabel .refl = q.relabel .refl := by
  obtain ⟨hpfs, hpmain⟩ := canonical_parts hp hpnames
  obtain ⟨hqfs, hqmain⟩ := canonical_parts hq hqnames
  have hlines : lines p.functions p.main = lines q.functions q.main := by
    rw [← toList_text, ← toList_text, h]
  obtain ⟨hfs, hmain⟩ := lines_inj hpfs hqfs hpmain hqmain hlines
  rw [relabel, relabel, hfs, hmain]

def Sample.keywords (span : Span) : Program where
  functions := [
    { name := "func", params := ["if", "return"], span,
      body := [.assign "if" (.call "if" [.int (-5), .unary .minus (.int 5)] span) span,
        .ret (.chain (.int (-5)) [(.sub, .unary .minus (.int (-5)))]) span] },
    { name := "if", params := ["x", "y"], span, body := [.ret (.var "x" span) span] }]
  main := [.declare "var" (.int (-1)) span,
    .cond (.var "var" span) [.discard (.call "func" [.int 1, .int 2] span) span] (some []) span,
    .cond (.var "var" span) [.loop (.int 0) [] span] none span]

theorem Program.relabel_eq_of_text_keywords :
    (Sample.keywords ⟨1, 2⟩).text = (Sample.keywords ⟨3, 4⟩).text ∧
      (Sample.keywords ⟨1, 2⟩).relabel .refl = (Sample.keywords ⟨3, 4⟩).relabel .refl :=
  ⟨rfl, relabel_eq_of_text rfl rfl (by decide) (by decide) rfl⟩

-- Outside of normal form texts coincide: a group is written like a call of a function `group`.
example : (Operand.group (.var "x" {}) []).text = (Operand.call "group" [.var "x" {}] {}).text := rfl

end Wordcode
