import Wordcode.Proofs.ControlFlow
import Wordcode.Proofs.ListingOperands
import Wordcode.Proofs.RoundTrip

/-!
What a listing tells about its image. Main statement: compiled programs whose names are identifiers
have the same listing only if their images are equal.
-/

namespace Wordcode

section Lists

variable {α β γ δ : Type}

/-- What the images of elements determine, the lists of the images determine too. -/
theorem map_eq_of_map_eq {f : α → γ} {g : β → γ} {f' : α → δ} {g' : β → δ} {xs : List α}
    {ys : List β} (h : xs.map f = ys.map g)
    (hfg : ∀ x ∈ xs, ∀ y ∈ ys, f x = g y → f' x = g' y) : xs.map f' = ys.map g' := by
  induction xs generalizing ys with
  | nil =>
    cases ys with
    | nil => rfl
    | cons y ys => simp at h
  | cons x xs ih =>
    cases ys with
    | nil => simp at h
    | cons y ys =>
      obtain ⟨hhead, htail⟩ := List.cons.inj h
      have hx := hfg x List.mem_cons_self y List.mem_cons_self hhead
      have hxs := ih htail fun x hx y hy =>
        hfg x (List.mem_cons_of_mem _ hx) y (List.mem_cons_of_mem _ hy)
      rw [List.map_cons, List.map_cons, hx, hxs]

theorem lines_eq_of_join {ls ls' : List String} (h : ∀ l ∈ ls, '\n' ∉ l.toList)
    (h' : ∀ l ∈ ls', '\n' ∉ l.toList)
    (heq : String.join (ls.map (· ++ "\n")) = String.join (ls'.map (· ++ "\n"))) : ls = ls' := by
  rw [← String.toList_inj] at heq
  induction ls generalizing ls' with
  | nil =>
    cases ls' with
    | nil => rfl
    | cons l ls => simp at heq
  | cons l ls ih =>
    cases ls' with
    | nil => simp at heq
    | cons l' ls' =>
      rw [List.forall_mem_cons] at h h'
      simp only [List.map_cons, String.join_cons, String.toList_append, List.append_assoc] at heq
      obtain ⟨hline, hrest⟩ := append_inj_of_notMem h.1 h'.1 heq
      rw [String.toList_inj.mp hline, ih h.2 h'.2 hrest]

end Lists

namespace Tiles

variable {start stop stop' : Nat} {bs : List Body}

theorem stop_eq (h : Tiles start stop bs) (h' : Tiles start stop' bs) : stop = stop' := by
  induction bs generalizing start with
  | nil => exact h.symm.trans h'
  | cons b bs ih => exact ih h.2.2 h'.2.2

/-- Code that agrees on each of the bodies. -/
theorem extract_eq (h : Tiles start stop bs) {code code' : Array Word}
    (hbs : ∀ b ∈ bs, code.extract b.start b.stop = code'.extract b.start b.stop) :
    code.extract start stop = code'.extract start stop := by
  induction bs generalizing start with
  | nil =>
    have hle : stop ≤ start := Nat.le_of_eq (h : start = stop).symm
    rw [Array.extract_empty_of_stop_le_start hle, Array.extract_empty_of_stop_le_start hle]
  | cons b bs ih =>
    obtain ⟨rfl, hlt, hrest⟩ := h
    rw [List.forall_mem_cons] at hbs
    have hle := hrest.le
    have hsplit : ∀ code : Array Word, code.extract b.start stop =
        code.extract b.start b.stop ++ code.extract b.stop stop := by
      intro code
      rw [Array.extract_append_extract, Nat.min_eq_left (by omega), Nat.max_eq_right (by omega)]
    rw [hsplit code, hsplit code', hbs.1, ih hrest hbs.2]

end Tiles

namespace Instruction

variable {is js : List Instruction} {s s' : Nat}

def key (placed : Nat × Instruction) : Nat × Opcode := (placed.1, placed.2.opcode)

theorem widthAll_of_keys (h : (place s is).map key = (place s' js).map key) :
    widthAll is = widthAll js := by
  induction is generalizing s s' js with
  | nil =>
    cases js with
    | nil => rfl
    | cons j js => simp [place] at h
  | cons i is ih =>
    cases js with
    | nil => simp [place] at h
    | cons j js =>
      obtain ⟨hhead, htail⟩ := List.cons.inj h
      have hop : i.opcode = j.opcode := (Prod.mk.inj hhead).2
      rw [widthAll, widthAll, ih htail, width, width, hop]

theorem start_of_keys (h : (place s is).map key = (place s' js).map key) (hpos : 0 < widthAll is) :
    s = s' := by
  cases is with
  | nil => simp [widthAll] at hpos
  | cons i is =>
    cases js with
    | nil => simp [place] at h
    | cons j js => exact (Prod.mk.inj (List.cons.inj h).1).1

end Instruction

namespace Image

variable {im im' : Image} {b b' : Body} {a a' : Nat} {i j : Instruction}

section Lines

variable {is : List Instruction}

def innerLines (im : Image) (b : Body) : List String :=
  slotLines b ++ (sweep im.code b.start b.stop).flatMap (im.decodedLines im.jumpTargets b)

theorem listingLines_eq (im : Image) :
    im.listingLines = (im.bodies.flatMap fun b => b.header :: im.innerLines b) ++ ["end:"] := rfl

theorem innerLines_of_fills (h : im.Fills b is) :
    im.innerLines b = slotLines b ++ (Instruction.place b.start is).flatMap fun (a, i) =>
      (if im.jumpTargets.contains a then [labelLine a] else []) ++ [im.instructionLine b a i] := by
  rw [innerLines, h.decodes, List.flatMap_map]
  rfl

theorem locals_eq (h : Spelled b.locals) (h' : Spelled b'.locals)
    (heq : slotLines b = slotLines b') : b.locals = b'.locals := by
  rw [← List.zipIdx_map_fst 0 b.locals, ← List.zipIdx_map_fst 0 b'.locals]
  refine map_eq_of_map_eq heq fun x hx y hy hline => ?_
  exact slotLine_inj (h x.1 (List.fst_mem_of_mem_zipIdx hx))
    (h' y.1 (List.fst_mem_of_mem_zipIdx hy)) hline

theorem kind_slotLines {line : String} (h : line ∈ slotLines b) : LineKind.ofLine line = .slot := by
  obtain ⟨⟨name, slot⟩, -, rfl⟩ := List.mem_map.mp h
  exact LineKind.ofLine_slot name slot

theorem kind_instructionLine (him : Named im.bodies) (hb : b ∈ im.bodies) :
    LineKind.ofLine (im.instructionLine b a i) = .instruction :=
  LineKind.ofLine_instruction
    (toList_instructionLine (solid_operandText him hb a i))

theorem mem_innerLines (h : im.Fills b is) {line : String} (hl : line ∈ im.innerLines b) :
    (∃ name ∈ b.locals, ∃ slot, line = slotLine name slot) ∨ (∃ a : Nat, line = labelLine a) ∨
      ∃ a i, line = im.instructionLine b a i := by
  rw [innerLines_of_fills h] at hl
  obtain hslot | hcode := List.mem_append.mp hl
  · obtain ⟨⟨name, slot⟩, hmem, rfl⟩ := List.mem_map.mp hslot
    exact Or.inl ⟨name, List.fst_mem_of_mem_zipIdx hmem, slot, rfl⟩
  · obtain ⟨⟨a, i⟩, -, hmem⟩ := List.mem_flatMap.mp hcode
    obtain hlabel | hline := List.mem_append.mp hmem
    · exact Or.inr (Or.inl ⟨a, by grind⟩)
    · exact Or.inr (Or.inr ⟨a, i, List.mem_singleton.mp hline⟩)

def ofKind (kind : LineKind) (line : String) : Bool := LineKind.ofLine line == kind

/-- The slots of a body in its lines. -/
theorem filter_slots (him : Named im.bodies) (hb : b ∈ im.bodies) (h : im.Fills b is) :
    (im.innerLines b).filter (ofKind .slot) = slotLines b := by
  have hslots : (slotLines b).filter (ofKind .slot) = slotLines b :=
    List.filter_eq_self.mpr fun line hl => by simp [ofKind, kind_slotLines hl]
  rw [innerLines_of_fills h, List.filter_append, hslots, List.filter_flatMap]
  simp only [List.append_right_eq_self, List.flatMap_eq_nil_iff]
  rintro ⟨a, i⟩ -
  dsimp only
  split <;> simp [ofKind, LineKind.ofLine_label, kind_instructionLine him hb]

/-- The instructions of a body in its lines. -/
theorem filter_instructions (him : Named im.bodies) (hb : b ∈ im.bodies) (h : im.Fills b is) :
    (im.innerLines b).filter (ofKind .instruction) =
      (Instruction.place b.start is).map fun (a, i) => im.instructionLine b a i := by
  have hslots : (slotLines b).filter (ofKind .instruction) = [] :=
    List.filter_eq_nil_iff.mpr fun line hl => by simp [ofKind, kind_slotLines hl]
  rw [innerLines_of_fills h, List.filter_append, hslots, List.filter_flatMap, List.map_eq_flatMap]
  refine congrArg (List.flatMap · _) (funext fun (a, i) => ?_)
  dsimp only
  split <;> simp [ofKind, LineKind.ofLine_label, kind_instructionLine him hb]

end Lines

section Blocks

def blockLines (blocks : List (String × List String)) : List String :=
  (blocks.flatMap fun block => block.1 :: block.2) ++ ["end:"]

structure IsBlock (block : String × List String) : Prop where
  header : LineKind.ofLine block.1 = .header
  notEnd : block.1 ≠ "end:"
  inner : ∀ line ∈ block.2, LineKind.ofLine line ≠ .header

variable {blocks blocks' : List (String × List String)}

theorem blockLines_cons (block : String × List String) :
    blockLines (block :: blocks) = block.1 :: (block.2 ++ blockLines blocks) := by
  simp [blockLines]

theorem stops_blockLines (h : ∀ block ∈ blocks, IsBlock block) :
    Stops (fun line => !ofKind .header line) (blockLines blocks) := by
  cases blocks with
  | nil => exact stops_cons (by decide)
  | cons block blocks =>
    rw [blockLines_cons]
    exact stops_cons (by simp [ofKind, (h block List.mem_cons_self).header])

theorem blockLines_inj (h : ∀ block ∈ blocks, IsBlock block)
    (h' : ∀ block ∈ blocks', IsBlock block) (heq : blockLines blocks = blockLines blocks') :
    blocks = blocks' := by
  induction blocks generalizing blocks' with
  | nil =>
    cases blocks' with
    | nil => rfl
    | cons block' blocks' =>
      rw [blockLines_cons] at heq
      exact absurd (List.cons.inj heq).1.symm (h' block' List.mem_cons_self).notEnd
  | cons block blocks ih =>
    cases blocks' with
    | nil =>
      rw [blockLines_cons] at heq
      exact absurd (List.cons.inj heq).1 (h block List.mem_cons_self).notEnd
    | cons block' blocks' =>
      rw [List.forall_mem_cons] at h h'
      rw [blockLines_cons, blockLines_cons] at heq
      obtain ⟨hheader, hrest⟩ := List.cons.inj heq
      have hall : ∀ block, IsBlock block →
          block.2.all (fun line => !ofKind .header line) = true := by
        intro block hblock
        simpa [ofKind] using hblock.inner
      obtain ⟨hinner, htail⟩ := append_inj_of_stops (hall block h.1) (hall block' h'.1)
        (stops_blockLines h.2) (stops_blockLines h'.2) hrest
      rw [Prod.ext hheader hinner, ih h.2 h'.2 htail]

end Blocks

/-- An image that its listing shows in full. -/
structure Legible (im : Image) : Prop extends Named im.bodies where
  entry : im.entry = 0
  tiles : Tiles 0 im.code.size im.bodies
  filled : ∀ b ∈ im.bodies, ∃ is : List Instruction,
    Holds im.code b.start (is.flatMap Instruction.encode) ∧
      b.start + Instruction.widthAll is = b.stop
  jumps : ∀ b ∈ im.bodies, ∀ a i offset, im.Has b a i → i.offset? = some offset →
    ∃ target, i.jumpTarget a = some target

namespace Legible

theorem exists_fills (h : im.Legible) (hb : b ∈ im.bodies) : ∃ is : List Instruction,
    im.Fills b is ∧ (im.code.extract b.start b.stop).toList = is.flatMap Instruction.encode := by
  obtain ⟨is, hholds, hwidth⟩ := h.filled b hb
  refine ⟨is, ⟨sweep_of_holds hholds hwidth (h.tiles.bounds hb).2.2, hwidth⟩, ?_⟩
  rw [← hwidth]
  exact toList_extract_of_holds hholds (Instruction.length_encodeAll is)

theorem isBlock (h : im.Legible) (hb : b ∈ im.bodies) : IsBlock (b.header, im.innerLines b) := by
  obtain ⟨is, hfills, -⟩ := h.exists_fills hb
  refine ⟨LineKind.ofLine_header (h.names b hb), ?_, ?_⟩
  · intro heq
    have hslash : '/' ∈ b.header.toList := by simp [b.toList_header]
    rw [show b.header = "end:" from heq] at hslash
    simp at hslash
  · intro line hl
    obtain ⟨name, -, slot, rfl⟩ | ⟨a, rfl⟩ | ⟨a, i, rfl⟩ := mem_innerLines hfills hl
    · simp [LineKind.ofLine_slot]
    · simp [LineKind.ofLine_label]
    · simp [kind_instructionLine h.toNamed hb]

theorem newline_notMem (h : im.Legible) {line : String} (hl : line ∈ im.listingLines) :
    '\n' ∉ line.toList := by
  rw [listingLines_eq, List.mem_append, List.mem_flatMap] at hl
  obtain ⟨b, hb, hl⟩ | hlast := hl
  · obtain rfl | hl := List.mem_cons.mp hl
    · exact Body.newline_notMem_header (h.names b hb)
    · obtain ⟨is, hfills, -⟩ := h.exists_fills hb
      obtain ⟨name, hname, slot, rfl⟩ | ⟨a, rfl⟩ | ⟨a, i, rfl⟩ := mem_innerLines hfills hl
      · exact newline_notMem_slotLine (h.locals b hb name hname) slot
      · exact newline_notMem_label a
      · have hsolid := solid_operandText h.toNamed hb a i
        rw [toList_instructionLine hsolid]
        exact newline_notMem_lineText hsolid
  · rw [List.mem_singleton.mp hlast]
    decide

theorem blocks_eq (h : im.Legible) (h' : im'.Legible) (heq : im.listing = im'.listing) :
    (im.bodies.map fun b => (b.header, im.innerLines b)) =
      im'.bodies.map fun b => (b.header, im'.innerLines b) := by
  have hlines := lines_eq_of_join (fun _ => h.newline_notMem) (fun _ => h'.newline_notMem) heq
  have hblocks : ∀ im : Image, im.listingLines =
      blockLines (im.bodies.map fun b => (b.header, im.innerLines b)) := by
    intro im
    rw [listingLines_eq, blockLines, List.flatMap_map]
  rw [hblocks im, hblocks im'] at hlines
  refine blockLines_inj ?_ ?_ hlines
  · simpa using fun b hb => h.isBlock hb
  · simpa using fun b hb => h'.isBlock hb

section Bodies

variable {is js : List Instruction}

theorem lines_eq (h : im.Legible) (h' : im'.Legible) (hb : b ∈ im.bodies) (hb' : b' ∈ im'.bodies)
    (hfills : im.Fills b is) (hfills' : im'.Fills b' js)
    (heq : im.innerLines b = im'.innerLines b') :
    ((Instruction.place b.start is).map fun (a, i) => im.instructionLine b a i) =
      (Instruction.place b'.start js).map fun (a, i) => im'.instructionLine b' a i := by
  rw [← filter_instructions h.toNamed hb hfills, ← filter_instructions h'.toNamed hb' hfills', heq]

theorem keys_eq (h : im.Legible) (h' : im'.Legible) (hb : b ∈ im.bodies) (hb' : b' ∈ im'.bodies)
    (hfills : im.Fills b is) (hfills' : im'.Fills b' js)
    (heq : im.innerLines b = im'.innerLines b') :
    (Instruction.place b.start is).map Instruction.key =
      (Instruction.place b'.start js).map Instruction.key := by
  refine map_eq_of_map_eq (h.lines_eq h' hb hb' hfills hfills' heq) fun x _ y _ hline => ?_
  obtain ⟨haddress, hop, -⟩ := instructionLine_inj h.toNamed h'.toNamed hb hb' hline
  exact Prod.ext haddress hop

/-- Headers and lines tell a body from others, in other images too. -/
theorem body_eq (h : im.Legible) (h' : im'.Legible) (hb : b ∈ im.bodies) (hb' : b' ∈ im'.bodies)
    (heq : (b.header, im.innerLines b) = (b'.header, im'.innerLines b')) : b = b' := by
  obtain ⟨hheader, hinner⟩ := Prod.mk.inj heq
  obtain ⟨is, hfills, -⟩ := h.exists_fills hb
  obtain ⟨js, hfills', -⟩ := h'.exists_fills hb'
  obtain ⟨hname, harity⟩ := Body.header_inj (h.names b hb) (h'.names b' hb') hheader
  have hslots := filter_slots h.toNamed hb hfills
  rw [hinner, filter_slots h'.toNamed hb' hfills'] at hslots
  have hlocals := locals_eq (h.locals b hb) (h'.locals b' hb') hslots.symm
  -- addresses show where the body starts, and opcodes how wide it is
  have hkeys := h.keys_eq h' hb hb' hfills hfills' hinner
  have hpos : 0 < Instruction.widthAll is := by
    have hlt := (h.tiles.bounds hb).2.1
    have hwidth := hfills.width
    omega
  have hstart := Instruction.start_of_keys hkeys hpos
  have hstop : b.stop = b'.stop := by
    rw [← hfills.width, ← hfills'.width, hstart, Instruction.widthAll_of_keys hkeys]
  cases b
  cases b'
  simp_all

/-- The instructions of a body that two images share. -/
theorem instructions_eq (h : im.Legible) (h' : im'.Legible) (hbodies : im.bodies = im'.bodies)
    (hsize : im.code.size = im'.code.size) (hb : b ∈ im.bodies) (hfills : im.Fills b is)
    (hfills' : im'.Fills b js) (heq : im.innerLines b = im'.innerLines b) : is = js := by
  have hb' : b ∈ im'.bodies := hbodies ▸ hb
  rw [← Instruction.map_snd_place b.start is, ← Instruction.map_snd_place b.start js]
  refine map_eq_of_map_eq (h.lines_eq h' hb hb' hfills hfills' heq) ?_
  rintro ⟨a, i⟩ hi ⟨a', j⟩ hj hline
  obtain ⟨rfl, hop, htext⟩ := instructionLine_inj h.toNamed h'.toNamed hb hb' hline
  rw [← operandText_congr hbodies hsize] at htext
  exact operandText_inj h.toNamed hb hop
    (fun offset => h.jumps b hb a i offset (hfills.has_iff.mpr hi))
    (fun offset => h'.jumps b hb' a j offset (hfills'.has_iff.mpr hj)) htext

end Bodies

/-- A listing shows all there is in the image. -/
theorem eq_of_listing (h : im.Legible) (h' : im'.Legible) (heq : im.listing = im'.listing) :
    im = im' := by
  have hblocks := h.blocks_eq h' heq
  have hbodies : im.bodies = im'.bodies := by
    rw [← List.map_id im.bodies, ← List.map_id im'.bodies]
    exact map_eq_of_map_eq hblocks fun b hb b' hb' => h.body_eq h' hb hb'
  have hsize : im.code.size = im'.code.size := by
    have htiles := h.tiles
    rw [hbodies] at htiles
    exact htiles.stop_eq h'.tiles
  have hwords : ∀ b ∈ im.bodies,
      im.code.extract b.start b.stop = im'.code.extract b.start b.stop := by
    intro b hb
    rw [← hbodies] at hblocks
    have hinner := (Prod.mk.inj (List.map_inj_left.mp hblocks b hb)).2
    obtain ⟨is, hfills, his⟩ := h.exists_fills hb
    obtain ⟨js, hfills', hjs⟩ := h'.exists_fills (hbodies ▸ hb)
    have heq := h.instructions_eq h' hbodies hsize hb hfills hfills' hinner
    exact Array.toList_inj.mp (by rw [his, hjs, heq])
  have hcode : im.code = im'.code := by
    have hall := h.tiles.extract_eq hwords
    rwa [Array.extract_size, hsize, Array.extract_size] at hall
  have hentry : im.entry = im'.entry := h.entry.trans h'.entry.symm
  cases im
  cases im'
  simp_all

end Legible

end Image

mutual
theorem Statement.declares_subset : (s : Statement) → s.declares ⊆ s.mentions
  | .declare name x span => by simp [Statement.declares, Statement.mentions]
  | .assign _ _ _ | .discard _ _ | .ret _ _ => by simp [Statement.declares]
  | .cond test yes none span => by
    rw [Statement.declares, Statement.mentions]
    exact List.Subset.trans (Block.declares_subset yes) (List.subset_append_right _ _)
  | .cond test yes (some no) span => by
    have hyes := Block.declares_subset yes
    have hno := Block.declares_subset no
    rw [Statement.declares, Statement.mentions]
    grind
  | .loop test body span => by
    rw [Statement.declares, Statement.mentions]
    exact List.Subset.trans (Block.declares_subset body) (List.subset_append_right _ _)
theorem Block.declares_subset : (b : Block) → Block.declares b ⊆ Block.mentions b
  | [] => by simp [Block.declares]
  | s :: rest => by
    have hs := s.declares_subset
    have hrest := Block.declares_subset rest
    rw [Block.declares, Block.mentions]
    grind
end

theorem nodup_of_functionErrors {fs : List Function} {earlier : List String}
    (h : functionErrors earlier fs = []) (hd : earlier.Nodup) :
    (earlier ++ fs.map Function.name).Nodup := by
  induction fs generalizing earlier with
  | nil => simpa using hd
  | cons f fs ih =>
    obtain ⟨hfresh, hrest⟩ := List.append_eq_nil_iff.mp h
    have hname : f.name ∉ earlier := by simpa using hfresh
    have hall := ih hrest (nodup_declare hd hname)
    rwa [List.append_assoc] at hall

namespace Program

variable {p q : Program} {im im' : Image}

theorem mentions_subset {f : Function} (hf : f ∈ p.functions) : f.mentions ⊆ p.mentions :=
  fun _ hname => List.mem_append_left _ (List.mem_flatMap.mpr ⟨f, hf, hname⟩)

/-- The names of a body's slots occur in the program. -/
theorem names_subset {f : Function} (hf : f ∈ p.bodies) : f.names ⊆ p.mentions := by
  have hdeclares := Block.declares_subset f.body
  obtain rfl | hf := List.mem_cons.mp hf
  · exact List.Subset.trans hdeclares (List.subset_append_right _ _)
  · have hnames : f.names ⊆ f.mentions := by
      simp only [Function.names, Function.mentions]
      grind
    exact List.Subset.trans hnames (mentions_subset hf)

theorem isIdentifier_of_mem {f : Function} (hf : f ∈ p.functions)
    (hnames : ∀ name ∈ p.mentions, isIdentifier name = true) : isIdentifier f.name = true :=
  hnames _ (mentions_subset hf (by simp [Function.mentions]))

theorem isBodyName_of_mem {f : Function} (hf : f ∈ p.bodies)
    (hnames : ∀ name ∈ p.mentions, isIdentifier name = true) : isBodyName f.name = true := by
  obtain rfl | hf := List.mem_cons.mp hf
  · simp [isBodyName, mainFunction]
  · simp [isBodyName, isIdentifier_of_mem hf hnames]

/-- The main block is named like no function. -/
theorem nodup_bodyNames (hc : p.compile = .ok im)
    (hnames : ∀ name ∈ p.mentions, isIdentifier name = true) :
    (im.bodies.map Body.name).Nodup := by
  have hmap : (Function.placedAll 0 p.bodies).map Body.name = p.bodies.map Function.name :=
    Function.map_placedAll (fun _ _ => rfl) 0 p.bodies
  have hfunctions := (List.append_eq_nil_iff.mp (compile_eq_ok hc).1).1
  rw [(image_of_compile hc).2.1, hmap, bodies, List.map_cons, List.nodup_cons]
  refine ⟨fun hmem => ?_, nodup_of_functionErrors hfunctions List.nodup_nil⟩
  obtain ⟨f, hf, hmain⟩ := List.mem_map.mp hmem
  have hname := isIdentifier_of_mem hf hnames
  rw [hmain, mainFunction] at hname
  simp [mainName, isIdentifier, isNameStart] at hname

theorem named_of_compile (hc : p.compile = .ok im)
    (hnames : ∀ name ∈ p.mentions, isIdentifier name = true) : Named im.bodies := by
  obtain ⟨he, -⟩ := compile_eq_ok hc
  refine ⟨?_, nodup_bodyNames hc hnames, ?_, ?_⟩
  · intro b hb
    obtain ⟨f, hf, hplaced, -⟩ := exists_fills hc hb
    rw [hplaced]
    exact isBodyName_of_mem hf hnames
  · intro b hb name hname
    obtain ⟨f, hf, hplaced, -⟩ := exists_fills hc hb
    rw [hplaced] at hname
    exact hnames name (names_subset hf hname)
  · intro b hb
    obtain ⟨f, hf, hplaced, -⟩ := exists_fills hc hb
    rw [hplaced]
    exact Function.nodup_names (errors_body he hf)

theorem legible_of_compile (hc : p.compile = .ok im) (hsize : im.code.size < addressSpace)
    (hnames : ∀ name ∈ p.mentions, isIdentifier name = true) : im.Legible where
  toNamed := named_of_compile hc hnames
  entry := (image_of_compile hc).2.2
  tiles := tiles_of_compile hc
  filled := by
    intro b hb
    obtain ⟨k, f, hf, rfl⟩ := exists_placed hc hb
    refine ⟨f.assemble p.target (p.start k) im.code.size, ?_, (fills_placed hc hf).width⟩
    rw [Function.encode_assemble]
    exact holds_body (image_of_compile hc).1 hf
  jumps := by
    intro b hb a i offset hi hoffset
    obtain ⟨n, -, -, -, htarget⟩ := jumps_of_compile hc hsize hb hi hoffset
    exact ⟨_, htarget⟩

end Program

/-- Of two programs whose names are identifiers the images are equal if the listings are. -/
theorem Program.image_eq_of_listing (p q : Program) (im im' : Image) (hp : p.compile = .ok im)
    (hq : q.compile = .ok im') (hsize : im.code.size < addressSpace)
    (hsize' : im'.code.size < addressSpace)
    (hpnames : ∀ name ∈ p.mentions, isIdentifier name = true)
    (hqnames : ∀ name ∈ q.mentions, isIdentifier name = true)
    (h : im.listing = im'.listing) : im = im' := by
  have hlegible := legible_of_compile hp hsize hpnames
  have hlegible' := legible_of_compile hq hsize' hqnames
  exact hlegible.eq_of_listing hlegible' h

def Sample.doubling (wrap : Operand → Operand) : Program where
  functions := [{
    name := "twice"
    params := ["x"]
    body := [ret (wrap (bin (var "x") .add (var "x")))] }]
  main := [
    declare "twice" (int (-1)),
    loop (var "twice") [assign "twice" (bin (call "twice" [var "twice"]) .add (int 2))],
    ret (var "twice")]

theorem Program.image_eq_of_listing_doubling :
    ∃ im im', (Sample.doubling id).compile = .ok im ∧
      (Sample.doubling (.group · [])).compile = .ok im' ∧ im.listing = im'.listing ∧ im = im' := by
  have hp : (Sample.doubling id).compile = .ok _ := rfl
  have hq : (Sample.doubling (.group · [])).compile = .ok _ := rfl
  have hsame : (Sample.doubling id).compile = (Sample.doubling (.group · [])).compile := rfl
  have hlisting := congrArg Image.listing (Except.ok.inj ((hp.symm.trans hsame).trans hq))
  exact ⟨_, _, hp, hq, hlisting, image_eq_of_listing _ _ _ _ hp hq (by decide) (by decide)
    (by decide) (by decide) hlisting⟩

end Wordcode
