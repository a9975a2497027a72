import Wordcode.Proofs.Balance

/-!
Running the code of an operand. The run never goes below the words that it finds and writes none of
their cells. Once it is behind the operand, one more word is there.
-/

namespace Wordcode

open Instruction (widthAll place level Climbs)

namespace Instruction

variable {i : Instruction} {a : Nat} {rest cs : List Nat}

theorem plain_of_gives (hgives : i.gives = 1) (hcall : i.opcode ≠ .call) : i.Plain := by
  cases i with
  | unary op =>
    exact ⟨hcall, Opcode.unary_ne op rfl, Opcode.unary_ne op rfl⟩
  | binary op =>
    exact ⟨hcall, Opcode.binary_ne op rfl, Opcode.binary_ne op rfl⟩
  | load slot | int w => simp [Plain, opcode]
  | call argc target => exact absurd rfl hcall
  | _ => cases hgives

theorem Leads.of_gives (h : i.Leads a rest cs) (hgives : i.gives = 1) (hcall : i.opcode ≠ .call) :
    cs = (a + i.width) :: rest := by
  cases h with
  | next => rfl
  | jump leads =>
    obtain ⟨offset, hoffset⟩ := offset?_of_jumpTarget leads
    rw [offset?_of_gives hgives] at hoffset
    cases hoffset
  | call => exact absurd rfl hcall
  | ret => cases hgives

end Instruction

namespace Exec

section Writes

variable {limit a : Nat} {code : Array Word} {s t : State}

theorem pop_eq_ok {w : Word} (h : pop a s = .ok w t) :
    t = { s with frame := { s.frame with top := s.frame.top - 1 } } := by
  rw [pop_apply] at h
  split at h
  next =>
    cases h
    rfl
  next => cases h

theorem push_untouched {w : Word}
    (h : (push w >>= fun _ => pure none : Exec (Option Word)) s = .ok none t) :
    Untouched s.frame.top s.stack t.stack := by
  obtain ⟨_, u, hpush, hpure⟩ := bind_eq_ok h
  cases hpure
  rw [push_apply] at hpush
  split at hpush
  next =>
    cases hpush
    exact .set _ w (Nat.le_refl _)
  next => cases hpush

/-- An instruction that leaves a word writes no cell below those that it takes. -/
theorem perform_untouched {i : Instruction} (hgives : i.gives = 1) (hcall : i.opcode ≠ .call)
    (h : i.perform limit code a s = .ok none t) :
    Untouched (s.frame.top - i.takes) s.stack t.stack := by
  cases i with
  | unary op =>
    obtain ⟨w, u, hpop, hrest⟩ := bind_eq_ok h
    obtain rfl := pop_eq_ok hpop
    exact push_untouched hrest
  | binary op =>
    obtain ⟨y, u, hpop, hrest⟩ := bind_eq_ok h
    obtain ⟨x, v, hpop', hrest⟩ := bind_eq_ok hrest
    obtain rfl := pop_eq_ok hpop
    obtain rfl := pop_eq_ok hpop'
    cases hw : op.apply x y with
    | ok w =>
      rw [hw] at hrest
      exact push_untouched hrest
    | error e =>
      rw [hw] at hrest
      cases hrest
  | load slot =>
    obtain ⟨i, u, hindex, hrest⟩ := bind_eq_ok h
    obtain ⟨rfl, -, -⟩ := localIndex_eq_ok hindex
    rw [get_bind] at hrest
    exact push_untouched hrest
  | int w => exact push_untouched h
  | call argc target => exact absurd rfl hcall
  | _ => cases hgives

end Writes

/-- The run from `s` passes through the state, and the invocation of `s` has not been at `stop`
before. -/
inductive Until (limit : Nat) (code : Array Word) (stop : Nat) (s : State) : State → Prop where
  | here : Until limit code stop s s
  | next {t t' : State} (before : Until limit code stop s t)
      (early : ¬ (t.callers = s.callers ∧ t.pc = stop)) (move : step limit code t = .ok none t') :
      Until limit code stop s t'

theorem Until.visits {limit stop : Nat} {code : Array Word} {s t : State}
    (h : Until limit code stop s t) : Visits limit code s t := by
  induction h with
  | here => exact .here
  | next _ _ move ih => exact .next ih move

/-- What the run of an operand's instructions from `s` on has come to in `t`. While none of its calls
runs, one of the instructions comes next or, with one more word there, the run is behind them. -/
structure Progress (is : List Instruction) (s t : State) : Prop where
  above : s.frame.top ≤ t.frame.top
  below : Untouched s.frame.top s.stack t.stack
  callers : s.callers <:+ t.callers
  frame : t.callers = s.callers → t.frame = { s.frame with top := t.frame.top }
  inside : t.callers = s.callers →
    (∃ i, (t.pc, i) ∈ place s.pc is) ∨
      t.pc = s.pc + widthAll is ∧ t.frame.top = s.frame.top + 1

section Steps

variable {limit h high n bottom : Nat} {code origin : Array Word} {s t t' u v : State}
  {argc target : Word} {i : Instruction} {before after is : List Instruction}

structure Reached (s : State) (h : Nat) (before : List Instruction) (t : State) : Prop where
  pc : t.pc = s.pc + widthAll before
  lifted : Lifted s (s.frame.floor + level h before) t
  below : Untouched s.frame.top s.stack t.stack

theorem Reached.start (htop : s.frame.top = s.frame.floor + h) : Reached s h [] s :=
  ⟨rfl, ⟨by rw [level, List.foldl_nil, ← htop], rfl, rfl, rfl⟩, .refl _ _⟩

theorem Reached.top (hr : Reached s h before t) :
    t.frame.top = s.frame.floor + level h before := by rw [hr.lifted.frame]

/-- Instructions that stay in the invocation. -/
theorem Reached.plain (hr : Reached s h before t) (htop : s.frame.top = s.frame.floor + h)
    (htakes : h + i.takes ≤ level h before) (hgives : i.gives = 1) (hcall : i.opcode ≠ .call)
    (hcode : code.size < addressSpace) (hi : decode code t.pc = .ok i)
    (move : step limit code t = .ok none t') : Reached s h (before ++ [i]) t' := by
  have hfloor := hr.top
  have hrise : t.frame.top - i.takes + i.gives = s.frame.floor + level h (before ++ [i]) := by
    rw [Instruction.level_concat]
    omega
  obtain ⟨j, hj, hperform⟩ := step_eq_ok hcode move
  cases hi.symm.trans hj
  have hlifts := perform_lifts t.pc limit code (Instruction.plain_of_gives hgives hcall)
    { t with pc := t.pc + i.width }
  have hcounters := (perform_leads rfl hperform).of_gives hgives hcall
  have hstack := perform_untouched hgives hcall hperform
  dsimp only at hlifts hstack
  rw [hperform, hrise] at hlifts
  cases hlifts with
  | ok lifted =>
    refine ⟨?_, hr.lifted.trans ⟨lifted.frame, lifted.callers, lifted.depth, lifted.size⟩, ?_⟩
    · rw [(List.cons.inj hcounters).1, hr.pc, Instruction.widthAll_append, Nat.add_assoc]
      rfl
    · exact hr.below.trans (hstack.mono (by omega))

/-- A call that comes back leaves its value in place of the arguments. -/
theorem Reached.back {w : Word} (hr : Reached s h before u)
    (htop : s.frame.top = s.frame.floor + h)
    (htakes : h + (Instruction.call argc target).takes ≤ level h before)
    (hn : argc.toIndex? = some n) (hback : CameBack u n w t) :
    Reached s h (before ++ [.call argc target]) t := by
  have hfloor := hr.top
  rw [Instruction.takes, hn, Option.getD_some] at htakes
  have hrise : u.frame.top - n + 1 = s.frame.floor + level h (before ++ [.call argc target]) := by
    rw [Instruction.level_concat, Instruction.takes, Instruction.gives, hn, Option.getD_some]
    omega
  have hlifted : Lifted u (s.frame.floor + level h (before ++ [.call argc target])) t :=
    ⟨hrise ▸ hback.frame, hback.callers, hback.depth, hback.stack.size⟩
  refine ⟨?_, hr.lifted.trans hlifted, hr.below.trans (hback.stack.mono (by omega))⟩
  rw [hback.pc, hr.pc, Instruction.widthAll_append, Nat.add_assoc]
  rfl

/-- How a state comes about while the instructions of an operand are run: the invocation of `s` has
got behind some of them, or a call among them has not come back yet. -/
inductive Working (limit : Nat) (code origin : Array Word) (bottom : Nat) (is : List Instruction)
    (h : Nat) (s : State) : State → Prop where
  | own {before after : List Instruction} {t : State} (split : is = before ++ after)
      (reached : Reached s h before t) : Working limit code origin bottom is h s t
  | callee {before after : List Instruction} {argc target : Word} {u v t : State}
      (split : is = before ++ .call argc target :: after) (reached : Reached s h before u)
      (confined : u.Confined origin bottom []) (move : step limit code u = .ok none v)
      (within : Within limit code v t) : Working limit code origin bottom is h s t

structure Ready (code : Array Word) (is : List Instruction) (h high : Nat) (s : State) : Prop where
  top : s.frame.top = s.frame.floor + h
  climbs : Climbs h high h is (h + 1)
  gives : ∀ i ∈ is, i.gives = 1
  holds : Holds code s.pc (is.flatMap Instruction.encode)

theorem Ready.holds_at (hready : Ready code is h high s) (hr : Reached s h before t)
    (hsplit : is = before ++ i :: after) : Holds code t.pc i.encode := by
  have hholds := hready.holds
  rw [hsplit, List.flatMap_append, List.flatMap_cons] at hholds
  rw [hr.pc]
  exact (hholds.after (Instruction.length_encodeAll before)).append_left

theorem Ready.takes (hready : Ready code is h high s) (hsplit : is = before ++ i :: after) :
    h + i.takes ≤ level h before := by
  have hclimbs := hready.climbs
  rw [hsplit] at hclimbs
  exact hclimbs.suits.takes

/-- One step of the run, or of a function that it calls. -/
theorem Working.step (hw : Working limit code origin bottom is h s t)
    (hready : Ready code is h high s) (hcode : code.size < addressSpace)
    (ht : t.Confined origin bottom [])
    (early : ¬ (t.callers = s.callers ∧ t.pc = s.pc + widthAll is))
    (move : step limit code t = .ok none t') : Working limit code origin bottom is h s t' := by
  cases hw with
  | @own before after _ split reached =>
    cases after with
    | nil =>
      -- Behind the last instruction the run is over.
      rw [List.append_nil] at split
      exact absurd ⟨reached.lifted.callers, split ▸ reached.pc⟩ early
    | cons i after =>
      have hholds := hready.holds_at reached split
      by_cases hcall : i.opcode = .call
      · obtain ⟨argc, target, rfl⟩ := Instruction.exists_call hcall
        exact .callee split reached ht move .here
      · have hgives := hready.gives i (split ▸ List.mem_append_right _ List.mem_cons_self)
        have hsplit : is = before ++ [i] ++ after := by simp [split]
        exact .own hsplit (reached.plain hready.top (hready.takes split) hgives hcall hcode
          (decode_of_holds hholds) move)
  | @callee before after argc target u v _ split reached confined call within =>
    -- The callee goes on, or it returns and the next instruction of the operand is due.
    by_cases hwithin : v.callers.length ≤ t'.callers.length
    · exact .callee split reached confined call (.next within move hwithin)
    · have hholds := hready.holds_at reached split
      have hback : Finishes limit code v (.ok _) t' :=
        .back within move (Nat.lt_of_not_le hwithin)
      obtain ⟨word, n, hword, hn, hcame⟩ :=
        hback.cameBack confined (opcodeAt_of_holds hholds) call
      cases hword.symm.trans hholds.tail.head
      have hsplit : is = before ++ [.call argc target] ++ after := by simp [split]
      exact .own hsplit (reached.back hready.top (hready.takes split) hn hcame)

theorem Until.working (hu : Until limit code (s.pc + widthAll is) s t)
    (hready : Ready code is h high s) (hcode : code.size < addressSpace)
    (hs : s.Confined origin bottom []) : Working limit code origin bottom is h s t := by
  induction hu with
  | here => exact .own (List.nil_append is).symm (.start hready.top)
  | next before early move ih =>
    exact ih.step hready hcode (before.visits.keeps (step_keeps _ _) hs) early move

theorem Ready.progress_own (hready : Ready code is h high s) (hr : Reached s h before t)
    (hsplit : is = before ++ after) : Progress is s t := by
  have hfloor := hr.top
  have htop := hready.top
  have hclimbs := hready.climbs
  rw [hsplit] at hclimbs
  have hlow := hclimbs.low_le (Nat.le_refl h)
  refine ⟨by omega, hr.below, hr.lifted.callers ▸ List.suffix_refl _, ?_, ?_⟩
  · intro _
    rw [hr.lifted.frame]
  · intro _
    cases after with
    | nil =>
      rw [List.append_nil] at hclimbs hsplit
      have hlevel := hclimbs.level_eq
      exact Or.inr ⟨hsplit ▸ hr.pc, by omega⟩
    | cons i after => exact Or.inl ⟨i, Instruction.mem_place.mpr ⟨before, after, hsplit, hr.pc⟩⟩

/-- A callee and all that it calls stay above the arguments of the call. -/
theorem Ready.progress_callee (hready : Ready code is h high s) (hr : Reached s h before u)
    (hsplit : is = before ++ .call argc target :: after) (hu : u.Confined origin bottom [])
    (call : Exec.step limit code u = .ok none v) (within : Within limit code v t) :
    Progress is s t := by
  have hholds := hready.holds_at hr hsplit
  have htakes := hready.takes hsplit
  have htop := hready.top
  have hfloor := hr.top
  have hv := step_keeps limit code u hu
  rw [call] at hv
  obtain ⟨word, n, entry, hword, hn, -, rfl⟩ := step_call (opcodeAt_of_holds hholds) call
  cases hword.symm.trans hholds.tail.head
  rw [Instruction.takes, hn, Option.getD_some] at htakes
  have ht := within.confined hv.self
  have hbase := ht.bottom_le_base
  have hlower := t.frame.base_le_floor
  have hupper := ht.fits.floor_le
  have hsuffix := ht.stacked.suffix
  dsimp only at hbase hsuffix
  rw [hr.lifted.callers] at hsuffix
  have hdeeper : t.callers ≠ s.callers := by
    intro heq
    have hlength := hsuffix.length_le
    rw [heq, List.length_cons] at hlength
    omega
  refine ⟨by omega, hr.below.trans (ht.untouched.mono ?_), (List.suffix_cons _ _).trans hsuffix,
    fun heq => absurd heq hdeeper, fun heq => absurd heq hdeeper⟩
  dsimp only
  omega

theorem Until.progress (hu : Until limit code (s.pc + widthAll is) s t)
    (hready : Ready code is h high s) (hcode : code.size < addressSpace)
    (hs : s.Confined origin bottom []) : Progress is s t := by
  cases hu.working hready hcode hs with
  | own split reached => exact hready.progress_own reached split
  | callee split reached confined call within =>
    exact hready.progress_callee reached split confined call within

end Steps

end Exec

end Wordcode
