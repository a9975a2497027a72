import Wordcode.Proofs.Slots
import Wordcode.Proofs.Sweep

/-!
The layout of trees as instructions. Encoded one after the other they are the words of the layout,
every call among them fits the function of its name, and every slot is that of a name.
-/

namespace Wordcode

mutual
def Operand.assemble (l : Linkage) : Operand → List Instruction
  | .int value => [.int value]
  | .var name _ => [.load (l.slot name)]
  | .unary op x => x.assemble l ++ [.unary op]
  | .chain first rest => first.assemble l ++ Links.assemble l rest
  | .group first rest => first.assemble l ++ Links.assemble l rest
  | .call name args _ =>
    Operand.assembleAll l args ++ [.call (.ofNat args.length) (.ofNat (l.target name))]
def Links.assemble (l : Linkage) : Links → List Instruction
  | [] => []
  | (op, x) :: rest => x.assemble l ++ [.binary op] ++ Links.assemble l rest
def Operand.assembleAll (l : Linkage) : List Operand → List Instruction
  | [] => []
  | x :: rest => x.assemble l ++ Operand.assembleAll l rest
end

mutual
def Statement.assemble (l : Linkage) : Statement → List Instruction
  | .declare name x _ => x.assemble l ++ [.store (l.slot name)]
  | .assign name x _ => x.assemble l ++ [.store (l.slot name)]
  | .cond test yes none _ =>
    test.assemble l ++ [.jumpIfFalse (.ofNat (Block.width yes + 1))] ++ Block.assemble l yes
  | .cond test yes (some no) _ =>
    test.assemble l ++ [.jumpIfFalse (.ofNat (Block.width yes + 3))] ++ Block.assemble l yes
      ++ [.jump (.ofNat (Block.width no + 1))] ++ Block.assemble l no
  | .loop test body _ =>
    test.assemble l ++ [.jumpIfFalse (.ofNat (Block.width body + 3))] ++ Block.assemble l body
      ++ [.jump (-.ofNat (test.width + Block.width body + 3))]
  | .discard x _ => x.assemble l ++ [.pop]
  | .ret x _ => x.assemble l ++ [.ret]
def Block.assemble (l : Linkage) : Block → List Instruction
  | [] => []
  | s :: rest => s.assemble l ++ Block.assemble l rest
end

def Function.exit (start stop : Nat) (f : Function) : Instruction :=
  .jump (.ofNat (stop - (start + 2 + Block.width f.body + 1)))

def Function.assemble (target : String → Nat) (start stop : Nat) (f : Function) :
    List Instruction :=
  [.stackAdjust (.ofNat f.names.length)] ++ Block.assemble ⟨f.names, target⟩ f.body
    ++ [f.exit start stop]

theorem Function.jumpTarget_exit {start stop : Nat} (f : Function) (hstop : stop < addressSpace)
    (hle : start + f.width ≤ stop) :
    (f.exit start stop).jumpTarget (start + 2 + Block.width f.body) = some (.ofNat stop) := by
  rw [width] at hle
  exact Instruction.jumpTarget_eq_ofNat rfl (by omega) hstop
    (Word.add_forward (by omega) (by omega))

section Encoding

mutual
theorem Operand.encode_assemble (l : Linkage) :
    (x : Operand) → (x.assemble l).flatMap Instruction.encode = x.layout l
  | .int _ | .var _ _ => List.flatMap_singleton _ _
  | .unary _ x => by
    rw [Operand.assemble, List.flatMap_append, x.encode_assemble l, List.flatMap_singleton,
      Operand.layout]
  | .chain first rest | .group first rest => by
    rw [Operand.assemble, List.flatMap_append, first.encode_assemble l,
      Links.encode_assemble l rest, Operand.layout]
  | .call _ args _ => by
    rw [Operand.assemble, List.flatMap_append, Operand.encode_assembleAll l args,
      List.flatMap_singleton, Operand.layout]
theorem Links.encode_assemble (l : Linkage) :
    (rest : Links) → (Links.assemble l rest).flatMap Instruction.encode = Links.layout l rest
  | [] => rfl
  | (_, x) :: rest => by
    rw [Links.assemble, List.flatMap_append, List.flatMap_append, x.encode_assemble l,
      List.flatMap_singleton, Links.encode_assemble l rest, Links.layout]
theorem Operand.encode_assembleAll (l : Linkage) : (xs : List Operand) →
    (Operand.assembleAll l xs).flatMap Instruction.encode = Operand.layoutAll l xs
  | [] => rfl
  | x :: rest => by
    rw [Operand.assembleAll, List.flatMap_append, x.encode_assemble l,
      Operand.encode_assembleAll l rest, Operand.layoutAll]
end

mutual
theorem Statement.encode_assemble (l : Linkage) :
    (s : Statement) → (s.assemble l).flatMap Instruction.encode = s.layout l
  | .declare _ x _ | .assign _ x _ | .discard x _ | .ret x _ => by
    rw [Statement.assemble, List.flatMap_append, x.encode_assemble l, List.flatMap_singleton,
      Statement.layout]
  | .cond test yes none _ => by
    simp only [Statement.assemble, List.flatMap_append, test.encode_assemble l,
      List.flatMap_singleton, Block.encode_assemble l yes, Statement.layout]
  | .cond test yes (some no) _ => by
    simp only [Statement.assemble, List.flatMap_append, test.encode_assemble l,
      List.flatMap_singleton, Block.encode_assemble l yes, Block.encode_assemble l no,
      Statement.layout]
  | .loop test body _ => by
    simp only [Statement.assemble, List.flatMap_append, test.encode_assemble l,
      List.flatMap_singleton, Block.encode_assemble l body, Statement.layout]
theorem Block.encode_assemble (l : Linkage) :
    (b : Block) → (Block.assemble l b).flatMap Instruction.encode = Block.layout l b
  | [] => rfl
  | s :: rest => by
    rw [Block.assemble, List.flatMap_append, s.encode_assemble l, Block.encode_assemble l rest,
      Block.layout]
end

theorem Function.encode_assemble (target : String → Nat) (start stop : Nat) (f : Function) :
    (f.assemble target start stop).flatMap Instruction.encode = f.layout target start stop := by
  rw [assemble, List.flatMap_append, List.flatMap_append, List.flatMap_singleton,
    Block.encode_assemble, List.flatMap_singleton, exit, layout]

@[simp] theorem Operand.widthAll_assemble (l : Linkage) (x : Operand) :
    Instruction.widthAll (x.assemble l) = x.width := by
  rw [← Instruction.length_encodeAll, x.encode_assemble, x.length_layout]

@[simp] theorem Statement.widthAll_assemble (l : Linkage) (s : Statement) :
    Instruction.widthAll (s.assemble l) = s.width := by
  rw [← Instruction.length_encodeAll, s.encode_assemble, s.length_layout]

@[simp] theorem Block.widthAll_assemble (l : Linkage) (b : Block) :
    Instruction.widthAll (Block.assemble l b) = Block.width b := by
  rw [← Instruction.length_encodeAll, Block.encode_assemble, Block.length_layout]

theorem Function.widthAll_assemble (target : String → Nat) (start stop : Nat) (f : Function) :
    Instruction.widthAll (f.assemble target start stop) = f.width := by
  rw [← Instruction.length_encodeAll, encode_assemble, length_layout]

end Encoding

/-- A call of the function it leads to, with as many arguments as the function takes. Their code
comes before the call, so there are no more of them than `bound`. -/
def Instruction.Fits (fs : List Function) (target : String → Nat) (bound : Nat) :
    Instruction → Prop
  | call argc entry => ∃ name f, fs.find? (·.name == name) = some f ∧
      f.params.length ≤ bound ∧ argc = .ofNat f.params.length ∧ entry = .ofNat (target name)
  | _ => True

section Calls

variable {fs : List Function} {bound : Nat} (l : Linkage)

mutual
theorem Operand.fits {declared : List String} : (x : Operand) → x.errors fs declared = [] →
    x.width ≤ bound → ∀ i ∈ x.assemble l, i.Fits fs l.target bound
  | .int _, _, _ | .var _ _, _, _ => List.forall_mem_singleton.mpr trivial
  | .unary _ x, he, hle =>
    List.forall_mem_append.mpr
      ⟨x.fits he (Nat.le_of_succ_le hle), List.forall_mem_singleton.mpr trivial⟩
  | .chain first rest, he, hle | .group first rest, he, hle => by
    obtain ⟨hfirst, hrest⟩ := List.append_eq_nil_iff.mp he
    simp only [Operand.width] at hle
    exact List.forall_mem_append.mpr
      ⟨first.fits hfirst (by omega), Links.fits rest hrest (by omega)⟩
  | .call name args span, he, hle => by
    obtain ⟨hargs, hcall⟩ := List.append_eq_nil_iff.mp he
    obtain ⟨f, hf, hparams⟩ := callErrors_eq_nil.mp hcall
    have hcount := Operand.two_mul_length_le args
    simp only [Operand.width] at hle
    refine List.forall_mem_append.mpr ⟨Operand.fitsAll args hargs (by omega), ?_⟩
    exact List.forall_mem_singleton.mpr ⟨name, f, hf, by omega, by rw [hparams], rfl⟩
theorem Links.fits {declared : List String} : (rest : Links) →
    Links.errors fs declared rest = [] → Links.width rest ≤ bound →
    ∀ i ∈ Links.assemble l rest, i.Fits fs l.target bound
  | [], _, _ => nofun
  | (_, x) :: rest, he, hle => by
    obtain ⟨hx, hrest⟩ := List.append_eq_nil_iff.mp he
    simp only [Links.width] at hle
    simp only [Links.assemble, List.forall_mem_append, List.forall_mem_singleton]
    exact ⟨⟨x.fits hx (by omega), trivial⟩, Links.fits rest hrest (by omega)⟩
theorem Operand.fitsAll {declared : List String} : (xs : List Operand) →
    Operand.errorsAll fs declared xs = [] → Operand.widthAll xs ≤ bound →
    ∀ i ∈ Operand.assembleAll l xs, i.Fits fs l.target bound
  | [], _, _ => nofun
  | x :: rest, he, hle => by
    obtain ⟨hx, hrest⟩ := List.append_eq_nil_iff.mp he
    simp only [Operand.widthAll] at hle
    exact List.forall_mem_append.mpr
      ⟨x.fits hx (by omega), Operand.fitsAll rest hrest (by omega)⟩
end

mutual
theorem Statement.fits : (s : Statement) → (declared : List String) → s.errors fs declared = [] →
    s.width ≤ bound → ∀ i ∈ s.assemble l, i.Fits fs l.target bound
  | .declare _ x _, _, he, hle => by
    have hx := (List.append_eq_nil_iff.mp he).2
    simp only [Statement.width] at hle
    exact List.forall_mem_append.mpr
      ⟨x.fits l hx (by omega), List.forall_mem_singleton.mpr trivial⟩
  | .assign _ x _, _, he, hle => by
    have hx := (List.append_eq_nil_iff.mp he).1
    simp only [Statement.width] at hle
    exact List.forall_mem_append.mpr
      ⟨x.fits l hx (by omega), List.forall_mem_singleton.mpr trivial⟩
  | .discard x _, _, he, hle | .ret x _, _, he, hle =>
    List.forall_mem_append.mpr
      ⟨x.fits l he (Nat.le_of_succ_le hle), List.forall_mem_singleton.mpr trivial⟩
  | .cond test yes none _, _, he, hle => by
    obtain ⟨htest, hyes⟩ := List.append_eq_nil_iff.mp he
    simp only [Statement.width] at hle
    simp only [Statement.assemble, List.forall_mem_append, List.forall_mem_singleton]
    exact ⟨⟨test.fits l htest (by omega), trivial⟩, Block.fits yes _ hyes (by omega)⟩
  | .cond test yes (some no) _, _, he, hle => by
    obtain ⟨hfirst, hno⟩ := List.append_eq_nil_iff.mp he
    obtain ⟨htest, hyes⟩ := List.append_eq_nil_iff.mp hfirst
    simp only [Statement.width] at hle
    simp only [Statement.assemble, List.forall_mem_append, List.forall_mem_singleton]
    exact ⟨⟨⟨⟨test.fits l htest (by omega), trivial⟩, Block.fits yes _ hyes (by omega)⟩, trivial⟩,
      Block.fits no _ hno (by omega)⟩
  | .loop test body _, _, he, hle => by
    obtain ⟨htest, hbody⟩ := List.append_eq_nil_iff.mp he
    simp only [Statement.width] at hle
    simp only [Statement.assemble, List.forall_mem_append, List.forall_mem_singleton]
    exact ⟨⟨⟨test.fits l htest (by omega), trivial⟩, Block.fits body _ hbody (by omega)⟩, trivial⟩
theorem Block.fits : (b : Block) → (declared : List String) → Block.errors fs declared b = [] →
    Block.width b ≤ bound → ∀ i ∈ Block.assemble l b, i.Fits fs l.target bound
  | [], _, _, _ => nofun
  | s :: rest, _, he, hle => by
    obtain ⟨hs, hrest⟩ := List.append_eq_nil_iff.mp he
    simp only [Block.width] at hle
    exact List.forall_mem_append.mpr
      ⟨s.fits _ hs (by omega), Block.fits rest _ hrest (by omega)⟩
end

end Calls

theorem Function.fits {fs : List Function} {f : Function} {bound : Nat} (he : f.errors fs = [])
    (hle : f.width ≤ bound) (target : String → Nat) (start stop : Nat) :
    ∀ i ∈ f.assemble target start stop, i.Fits fs target bound := by
  have hbody := (List.append_eq_nil_iff.mp he).2
  rw [Function.width] at hle
  simp only [Function.assemble, List.forall_mem_append, List.forall_mem_singleton]
  exact ⟨⟨trivial, Block.fits ⟨f.names, target⟩ f.body _ hbody (by omega)⟩, trivial⟩

def Instruction.Refers (l : Linkage) : Instruction → Prop
  | load slot | store slot => ∃ name ∈ l.names, slot = l.slot name
  | _ => True

section Slots

variable {fs : List Function} {l : Linkage} {declared : List String}

mutual
theorem Operand.refers (hd : declared ⊆ l.names) : (x : Operand) → x.errors fs declared = [] →
    ∀ i ∈ x.assemble l, i.Refers l
  | .int _, _ => List.forall_mem_singleton.mpr trivial
  | .var name _, he =>
    List.forall_mem_singleton.mpr ⟨name, hd (useErrors_eq_nil.mp he), rfl⟩
  | .unary _ x, he =>
    List.forall_mem_append.mpr ⟨x.refers hd he, List.forall_mem_singleton.mpr trivial⟩
  | .chain first rest, he | .group first rest, he => by
    obtain ⟨hfirst, hrest⟩ := List.append_eq_nil_iff.mp he
    exact List.forall_mem_append.mpr ⟨first.refers hd hfirst, Links.refers hd rest hrest⟩
  | .call _ args _, he => by
    obtain ⟨hargs, -⟩ := List.append_eq_nil_iff.mp he
    exact List.forall_mem_append.mpr
      ⟨Operand.refersAll hd args hargs, List.forall_mem_singleton.mpr trivial⟩
theorem Links.refers (hd : declared ⊆ l.names) : (rest : Links) →
    Links.errors fs declared rest = [] → ∀ i ∈ Links.assemble l rest, i.Refers l
  | [], _ => nofun
  | (_, x) :: rest, he => by
    obtain ⟨hx, hrest⟩ := List.append_eq_nil_iff.mp he
    simp only [Links.assemble, List.forall_mem_append, List.forall_mem_singleton]
    exact ⟨⟨x.refers hd hx, trivial⟩, Links.refers hd rest hrest⟩
theorem Operand.refersAll (hd : declared ⊆ l.names) : (xs : List Operand) →
    Operand.errorsAll fs declared xs = [] → ∀ i ∈ Operand.assembleAll l xs, i.Refers l
  | [], _ => nofun
  | x :: rest, he => by
    obtain ⟨hx, hrest⟩ := List.append_eq_nil_iff.mp he
    exact List.forall_mem_append.mpr ⟨x.refers hd hx, Operand.refersAll hd rest hrest⟩
end

mutual
theorem Statement.refers : (s : Statement) → (declared : List String) → declared ⊆ l.names →
    s.declares ⊆ l.names → s.errors fs declared = [] → ∀ i ∈ s.assemble l, i.Refers l
  | .declare name x _, _, hd, hs, he => by
    have hname : name ∈ l.names := hs (List.mem_singleton.mpr rfl)
    have hx := (List.append_eq_nil_iff.mp he).2
    exact List.forall_mem_append.mpr
      ⟨x.refers hd hx, List.forall_mem_singleton.mpr ⟨name, hname, rfl⟩⟩
  | .assign name x _, _, hd, _, he => by
    obtain ⟨hx, hname⟩ := List.append_eq_nil_iff.mp he
    exact List.forall_mem_append.mpr
      ⟨x.refers hd hx, List.forall_mem_singleton.mpr ⟨name, hd (useErrors_eq_nil.mp hname), rfl⟩⟩
  | .discard x _, _, hd, _, he | .ret x _, _, hd, _, he =>
    List.forall_mem_append.mpr ⟨x.refers hd he, List.forall_mem_singleton.mpr trivial⟩
  | .cond test yes none _, _, hd, hs, he => by
    obtain ⟨htest, hyes⟩ := List.append_eq_nil_iff.mp he
    simp only [Statement.assemble, List.forall_mem_append, List.forall_mem_singleton]
    exact ⟨⟨test.refers hd htest, trivial⟩, Block.refers yes _ hd hs hyes⟩
  | .cond test yes (some no) _, _, hd, hs, he => by
    obtain ⟨hfirst, hno⟩ := List.append_eq_nil_iff.mp he
    obtain ⟨htest, hyes⟩ := List.append_eq_nil_iff.mp hfirst
    obtain ⟨hsyes, hsno⟩ := List.append_subset.mp hs
    have hd' := List.append_subset.mpr ⟨hd, hsyes⟩
    simp only [Statement.assemble, List.forall_mem_append, List.forall_mem_singleton]
    exact ⟨⟨⟨⟨test.refers hd htest, trivial⟩, Block.refers yes _ hd hsyes hyes⟩, trivial⟩,
      Block.refers no _ hd' hsno hno⟩
  | .loop test body _, _, hd, hs, he => by
    obtain ⟨htest, hbody⟩ := List.append_eq_nil_iff.mp he
    simp only [Statement.assemble, List.forall_mem_append, List.forall_mem_singleton]
    exact ⟨⟨⟨test.refers hd htest, trivial⟩, Block.refers body _ hd hs hbody⟩, trivial⟩
theorem Block.refers : (b : Block) → (declared : List String) → declared ⊆ l.names →
    Block.declares b ⊆ l.names → Block.errors fs declared b = [] →
    ∀ i ∈ Block.assemble l b, i.Refers l
  | [], _, _, _, _ => nofun
  | s :: rest, _, hd, hb, he => by
    obtain ⟨hs, hrest⟩ := List.append_eq_nil_iff.mp he
    obtain ⟨hbs, hbrest⟩ := List.append_subset.mp hb
    exact List.forall_mem_append.mpr ⟨s.refers _ hd hbs hs,
      Block.refers rest _ (List.append_subset.mpr ⟨hd, hbs⟩) hbrest hrest⟩
end

end Slots

theorem Function.refers {fs : List Function} {f : Function} (he : f.errors fs = [])
    (target : String → Nat) (start stop : Nat) :
    ∀ i ∈ f.assemble target start stop, i.Refers ⟨f.names, target⟩ := by
  have hbody := (List.append_eq_nil_iff.mp he).2
  simp only [Function.assemble, List.forall_mem_append, List.forall_mem_singleton]
  exact ⟨⟨trivial, Block.refers f.body f.params (List.subset_append_left _ _)
    (List.subset_append_right _ _) hbody⟩, trivial⟩

end Wordcode
