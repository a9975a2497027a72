import Wordcode.Code.Instruction
import Wordcode.Proofs.Configuration

/-!
What single instructions do to configurations. The code is assumed to be shorter than
`addressSpace`, so that each of its addresses is a word.
-/

namespace Wordcode

/-- One more than the largest word. Each address of shorter code is a word. -/
def addressSpace : Nat := 9223372036854775808

theorem Word.toInt_ofNat {n : Nat} (h : n < addressSpace) : (Int64.ofNat n).toInt = n :=
  Int64.toInt_ofNat_of_lt (by simpa [addressSpace] using h)

theorem Word.toIndex?_ofNat {n : Nat} (h : n < addressSpace) :
    Word.toIndex? (.ofNat n) = some n := by
  simp [Word.toIndex?, Word.toInt_ofNat h]

theorem Word.toIndex?_eq_some_iff {w : Word} {n : Nat} : w.toIndex? = some n ↔ w.toInt = n := by
  simp only [toIndex?, Option.ite_none_right_eq_some, Option.some.injEq]
  omega

/-- A sum is there exactly if it is a word. -/
theorem Word.add?_eq_some_iff {u v t : Word} :
    Word.add? u v = some t ↔ t.toInt = u.toInt + v.toInt := by
  have hlow : Int64.minValue.toInt = -9223372036854775808 := by decide
  have hhigh : Int64.maxValue.toInt = 9223372036854775807 := by decide
  have hle := t.minValue_le_toInt
  have hlt := t.toInt_le
  simp only [add?, Option.ite_none_right_eq_some, Option.some.injEq]
  constructor
  · rintro ⟨⟨hmin, hmax⟩, rfl⟩
    exact Int64.toInt_ofInt_of_le (by omega) (by omega)
  · intro h
    rw [← h]
    exact ⟨by omega, Int64.ofInt_toInt t⟩

/-- A jump from `pc` by `offset` leads to `i`. -/
theorem Word.add?_eq_ofNat {pc i : Nat} {offset : Word} (hpc : pc < addressSpace)
    (hi : i < addressSpace) (h : (pc : Int) + offset.toInt = i) :
    Word.add? (.ofNat pc) offset = some (.ofNat i) := by
  have hp := Word.toInt_ofNat hpc
  have hmin : Int64.minValue.toInt ≤ (i : Int) := by
    have hneg : Int64.minValue.toInt ≤ 0 := by decide
    omega
  have hmax : (i : Int) ≤ Int64.maxValue.toInt := by
    have hval : Int64.maxValue.toInt = 9223372036854775807 := by decide
    unfold addressSpace at hi
    omega
  have hword : Int64.minValue.toInt ≤ (i : Int) ∧ (i : Int) ≤ Int64.maxValue.toInt := ⟨hmin, hmax⟩
  simp only [Word.add?, hp, h, if_pos hword, Int64.ofInt_eq_ofNat]

theorem Word.add_forward {pc n i : Nat} (hn : n < addressSpace) (hi : pc + n = i) :
    (pc : Int) + (Int64.ofNat n).toInt = i := by
  rw [Word.toInt_ofNat hn]
  omega

theorem Word.add_backward {pc n i : Nat} (hn : n < addressSpace) (hi : i + n = pc) :
    (pc : Int) + (-Int64.ofNat n).toInt = i := by
  have hneg : (-Int64.ofNat n).toInt = -n :=
    Int64.toInt_neg_ofNat_of_le (Nat.le_of_lt (by simpa [addressSpace] using hn))
  rw [hneg]
  omega

def Holds (code : Array Word) (address : Nat) (ws : List Word) : Prop :=
  ws <+: code.toList.drop address

namespace Holds

variable {code : Array Word} {address : Nat} {w : Word} {ws vs : List Word}

theorem append_left (h : Holds code address (ws ++ vs)) : Holds code address ws :=
  (List.prefix_append ws vs).trans h

theorem append_right (h : Holds code address (ws ++ vs)) :
    Holds code (address + ws.length) vs := by
  obtain ⟨rest, hrest⟩ := h
  refine ⟨rest, ?_⟩
  rw [← List.drop_drop, ← hrest, List.append_assoc, List.drop_left]

theorem append_iff : Holds code address (ws ++ vs) ↔
    Holds code address ws ∧ Holds code (address + ws.length) vs := by
  refine ⟨fun h => ⟨h.append_left, h.append_right⟩, ?_⟩
  rintro ⟨⟨rest, hrest⟩, hvs⟩
  rw [Holds, ← List.drop_drop, ← hrest, List.drop_left] at hvs
  rw [Holds, ← hrest]
  exact (List.prefix_append_right_inj ws).mpr hvs

theorem after {n : Nat} (h : Holds code address (ws ++ vs)) (hn : ws.length = n) :
    Holds code (address + n) vs := hn ▸ h.append_right

theorem head (h : Holds code address (w :: ws)) : code[address]? = some w := by
  obtain ⟨rest, hrest⟩ := h
  have hhead := congrArg List.head? hrest
  rw [List.head?_drop, Array.getElem?_toList] at hhead
  exact hhead.symm

theorem tail (h : Holds code address (w :: ws)) : Holds code (address + 1) ws :=
  @append_right code address [w] ws h

theorem nil (code : Array Word) (address : Nat) : Holds code address [] := List.nil_prefix

theorem cons (hw : code[address]? = some w) (hws : Holds code (address + 1) ws) :
    Holds code address (w :: ws) := by
  obtain ⟨hlt, hhead⟩ := Array.getElem?_eq_some_iff.mp hw
  rw [Holds, List.drop_eq_getElem_cons (by simpa using hlt), Array.getElem_toList, hhead]
  exact List.cons_prefix_cons.mpr ⟨rfl, hws⟩

theorem getElem {k : Nat} (h : Holds code address ws) (hk : k < ws.length)
    (hsize : address + k < code.size) : code[address + k] = ws[k] := by
  rw [List.IsPrefix.getElem h hk, List.getElem_drop, Array.getElem_toList]

theorem size_le (h : Holds code address ws) (hpos : 0 < ws.length) :
    address + ws.length ≤ code.size := by
  have hlen : ws.length ≤ (code.toList.drop address).length := List.IsPrefix.length_le h
  have hdrop : (code.toList.drop address).length = code.size - address := List.length_drop
  omega

end Holds

namespace Exec

def Moves (limit : Nat) (code : Array Word) (c c' : Config) : Prop :=
  Does (step limit code) c none c'

section Instructions

variable {limit : Nat} {code : Array Word} {pc depth : Nat} {below slots temps : List Word}
  {callers : List Caller} {a b w : Word}

theorem moves_int (h : Holds code pc (Instruction.int w).encode) :
    Moves limit code ⟨pc, below, slots, temps, depth, callers⟩
      ⟨pc + 2, below, slots, temps ++ [w], depth, callers⟩ :=
  step_does h.head ((immediate_does pc h.tail.head).bind ((push_does w).bind (does_pure none _)))

theorem moves_load {slot : Word} {i : Nat} (h : Holds code pc (Instruction.load slot).encode)
    (hi : slot.toIndex? = some i) (hw : slots[i]? = some w) :
    Moves limit code ⟨pc, below, slots, temps, depth, callers⟩
      ⟨pc + 2, below, slots, temps ++ [w], depth, callers⟩ :=
  step_does h.head ((immediate_does pc h.tail.head).bind (load_does pc hi hw))

theorem moves_store {slot : Word} {i : Nat} (h : Holds code pc (Instruction.store slot).encode)
    (hi : slot.toIndex? = some i) (hlt : i < slots.length) :
    Moves limit code ⟨pc, below, slots, temps ++ [w], depth, callers⟩
      ⟨pc + 2, below, slots.set i w, temps, depth, callers⟩ :=
  step_does h.head ((immediate_does pc h.tail.head).bind (store_does pc hi hlt))

theorem moves_unary {op : UnaryOperator} (h : Holds code pc (Instruction.unary op).encode) :
    Moves limit code ⟨pc, below, slots, temps ++ [a], depth, callers⟩
      ⟨pc + 1, below, slots, temps ++ [op.apply a], depth, callers⟩ := by
  refine step_does h.head ?_
  rw [Instruction.opcode, perform_unary]
  exact (pop_does pc).bind ((push_does _).bind (does_pure none _))

theorem moves_binary {op : BinaryOperator} (h : Holds code pc (Instruction.binary op).encode)
    (hw : op.apply a b = .ok w) :
    Moves limit code ⟨pc, below, slots, temps ++ [a] ++ [b], depth, callers⟩
      ⟨pc + 1, below, slots, temps ++ [w], depth, callers⟩ := by
  refine step_does h.head ?_
  rw [Instruction.opcode, perform_binary]
  refine (pop_does pc).bind ((pop_does pc).bind ?_)
  rw [hw]
  exact (push_does w).bind (does_pure none _)

theorem raises_binary {op : BinaryOperator} {e : ArithmeticError}
    (h : Holds code pc (Instruction.binary op).encode) (he : op.apply a b = .error e) :
    Raises (step limit code) ⟨pc, below, slots, temps ++ [a] ++ [b], depth, callers⟩
      (.ofArithmetic pc e) := by
  refine step_raises h.head ?_
  rw [Instruction.opcode, perform_binary]
  refine (pop_does pc).bind_raises ((pop_does pc).bind_raises ?_)
  rw [he]
  exact raises_throw _ _

theorem moves_pop (h : Holds code pc Instruction.pop.encode) :
    Moves limit code ⟨pc, below, slots, temps ++ [w], depth, callers⟩
      ⟨pc + 1, below, slots, temps, depth, callers⟩ :=
  step_does h.head ((pop_does pc).bind (does_pure none _))

section Jumps

variable {offset : Word} {i : Nat}

/-- A jump whose offset leads from its own address to `i`. -/
theorem follow_moves (h : code[pc + 1]? = some offset)
    (hi : ((pc + 1 : Nat) : Int) + offset.toInt = i) (hle : i ≤ code.size)
    (hsize : code.size < addressSpace) :
    Does (follow code pc) ⟨pc + 1, below, slots, temps, depth, callers⟩ ()
      ⟨i, below, slots, temps, depth, callers⟩ := by
  have hpc : pc + 1 < code.size := (Array.getElem?_eq_some_iff.mp h).1
  have hadd : Word.add? (.ofNat (pc + 1)) offset = some (.ofNat i) :=
    Word.add?_eq_ofNat (by omega) (by omega) hi
  exact follow_does pc h hadd (Word.toIndex?_ofNat (by omega)) hle

theorem moves_jump (h : Holds code pc (Instruction.jump offset).encode)
    (hi : ((pc + 1 : Nat) : Int) + offset.toInt = i) (hle : i ≤ code.size)
    (hsize : code.size < addressSpace) :
    Moves limit code ⟨pc, below, slots, temps, depth, callers⟩
      ⟨i, below, slots, temps, depth, callers⟩ :=
  step_does h.head ((follow_moves h.tail.head hi hle hsize).bind (does_pure none _))

theorem moves_jumpIfFalse_taken (h : Holds code pc (Instruction.jumpIfFalse offset).encode)
    (hi : ((pc + 1 : Nat) : Int) + offset.toInt = i) (hle : i ≤ code.size)
    (hsize : code.size < addressSpace) :
    Moves limit code ⟨pc, below, slots, temps ++ [0], depth, callers⟩
      ⟨i, below, slots, temps, depth, callers⟩ := by
  refine step_does h.head ((pop_does pc).bind ?_)
  rw [if_pos rfl]
  exact (follow_moves h.tail.head hi hle hsize).bind (does_pure none _)

theorem moves_jumpIfFalse_passed (h : Holds code pc (Instruction.jumpIfFalse offset).encode)
    (hw : w ≠ 0) :
    Moves limit code ⟨pc, below, slots, temps ++ [w], depth, callers⟩
      ⟨pc + 2, below, slots, temps, depth, callers⟩ := by
  refine step_does h.head ((pop_does pc).bind ?_)
  rw [if_neg hw]
  exact (immediate_does pc h.tail.head).bind (does_pure none _)

end Jumps

/-- The first instruction of a body turns the arguments into slots. -/
theorem moves_stackAdjust {n : Nat} (h : Holds code pc (Instruction.stackAdjust (.ofNat n)).encode)
    (hn : n < addressSpace) (hle : temps.length ≤ n) :
    Moves limit code ⟨pc, below, [], temps, depth, callers⟩
      ⟨pc + 2, below, temps ++ List.replicate (n - temps.length) 0, [], depth, callers⟩ :=
  step_does h.head ((immediate_does pc h.tail.head).bind
    ((adjust_does pc (Word.toIndex?_ofNat hn) hle).bind (does_pure none _)))

section Calls

variable {args : List Word} {entry : Nat}

theorem moves_call
    (h : Holds code pc (Instruction.call (.ofNat args.length) (.ofNat entry)).encode)
    (hargs : args.length < addressSpace) (he : entry < code.size)
    (hsize : code.size < addressSpace) (hd : depth < limit) :
    Moves limit code ⟨pc, below, slots, temps ++ args, depth, callers⟩
      ⟨entry, below ++ slots ++ temps, [], args, depth + 1,
        waiting (pc + 3) below slots temps args.length :: callers⟩ :=
  step_does h.head ((immediate_does pc h.tail.head).bind
    ((immediate_does pc h.tail.tail.head).bind
      ((enter_does pc (Word.toIndex?_ofNat hargs) (Word.toIndex?_ofNat (by omega)) he hd).bind
        (does_pure none _))))

theorem raises_call
    (h : Holds code pc (Instruction.call (.ofNat args.length) (.ofNat entry)).encode)
    (hargs : args.length < addressSpace) (he : entry < code.size)
    (hsize : code.size < addressSpace) (hd : limit ≤ depth) :
    Raises (step limit code) ⟨pc, below, slots, temps ++ args, depth, callers⟩
      (.callDepthExceeded limit) :=
  step_raises h.head ((immediate_does pc h.tail.head).bind_raises
    ((immediate_does pc h.tail.tail.head).bind_raises
      (Raises.bind (enter_raises pc (Word.toIndex?_ofNat hargs)
        (Word.toIndex?_ofNat (by omega)) he hd))))

theorem moves_ret {vs vs' : List Word} {n ret : Nat} (h : Holds code pc Instruction.ret.encode) :
    Moves limit code
      ⟨pc, below ++ slots ++ temps, vs, vs' ++ [w], depth + 1,
        waiting ret below slots temps n :: callers⟩
      ⟨ret, below, slots, temps ++ [w], depth, callers⟩ :=
  step_does h.head ((pop_does pc).bind leave_does)

theorem answers_ret (h : Holds code pc Instruction.ret.encode) :
    Does (step limit code) ⟨pc, below, slots, temps ++ [w], depth, []⟩ (some w)
      ⟨pc + 1, below, slots, temps, depth, []⟩ :=
  step_does h.head ((pop_does pc).bind leave_answers)

end Calls

end Instructions

end Exec

end Wordcode
