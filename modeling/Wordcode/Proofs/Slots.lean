import Wordcode.Proofs.Evaluation
import Wordcode.Proofs.Layout

/-!
The slots of a body, one for each of its names. The arguments come first, every other slot starts as
0, and an assignment changes the slot of its name alone.
-/

namespace Wordcode

theorem Operand.two_le_width (x : Operand) : 2 ≤ x.width := by
  cases x with
  | int value => exact Nat.le_refl 2
  | var name span => exact Nat.le_refl 2
  | unary op x => exact Nat.le_succ_of_le x.two_le_width
  | chain first rest => exact Nat.le_add_right_of_le first.two_le_width
  | group first rest => exact Nat.le_add_right_of_le first.two_le_width
  | call name args span =>
    rw [Operand.width]
    omega

theorem Operand.two_mul_length_le (xs : List Operand) : 2 * xs.length ≤ Operand.widthAll xs := by
  induction xs with
  | nil => exact Nat.le_refl 0
  | cons x rest ih =>
    have hx := x.two_le_width
    rw [List.length_cons, Operand.widthAll]
    omega

/-- An assignment changes the slot of its name and no other. -/
theorem Environment.map_set {names : List String} (hd : names.Nodup) (env : Environment)
    {name : String} (w : Word) (hn : name ∈ names) :
    (names.map env).set (names.idxOf name) w = names.map (env.set name w) := by
  induction names with
  | nil => cases hn
  | cons first rest ih =>
    obtain ⟨hfirst, hrest⟩ := List.nodup_cons.mp hd
    by_cases hname : first = name
    · subst hname
      have hothers : rest.map env = rest.map (env.set first w) := by
        apply List.map_congr_left
        intro other hother
        have hne : other ≠ first := fun h => hfirst (h ▸ hother)
        rw [Environment.set, if_neg hne]
      rw [List.idxOf_cons_self, List.map_cons, List.set_cons_zero, List.map_cons, hothers,
        Environment.set, if_pos rfl]
    · have hin : name ∈ rest := (List.mem_cons.mp hn).resolve_left (Ne.symm hname)
      have hindex : (first :: rest).idxOf name = rest.idxOf name + 1 := by
        rw [List.idxOf_cons, beq_false_of_ne hname, cond_false]
      rw [hindex, List.map_cons, List.set_cons_succ, ih hrest hin, List.map_cons, Environment.set,
        if_neg hname]

/-- Arguments are in the slots of their parameters. -/
theorem Environment.map_ofArguments {params : List String} (hd : params.Nodup) {args : List Word}
    (hlen : args.length = params.length) : params.map (ofArguments params args) = args := by
  induction params generalizing args with
  | nil => exact (List.eq_nil_of_length_eq_zero hlen).symm
  | cons first rest ih =>
    obtain ⟨hfirst, hrest⟩ := List.nodup_cons.mp hd
    cases args with
    | nil => cases hlen
    | cons w ws =>
      have hothers : rest.map (ofArguments (first :: rest) (w :: ws)) =
          rest.map (ofArguments rest ws) := by
        apply List.map_congr_left
        intro name hname
        have hne : name ≠ first := fun h => hfirst (h ▸ hname)
        rw [ofArguments, List.zip_cons_cons, List.lookup_cons, beq_false_of_ne hne]
        rfl
      have hself : ofArguments (first :: rest) (w :: ws) first = w := by
        rw [ofArguments, List.zip_cons_cons, List.lookup_cons_self]
        rfl
      rw [List.map_cons, hself, hothers, ih hrest (Nat.succ.inj hlen)]

/-- A name that is no parameter starts as 0. -/
theorem Environment.ofArguments_eq_zero {params : List String} {name : String}
    (hn : name ∉ params) (args : List Word) : ofArguments params args name = 0 := by
  induction params generalizing args with
  | nil => rfl
  | cons first rest ih =>
    have hne : name ≠ first := fun h => hn (h ▸ List.mem_cons_self)
    have hrest : name ∉ rest := fun h => hn (List.mem_cons_of_mem first h)
    cases args with
    | nil => rfl
    | cons w ws =>
      rw [ofArguments, List.zip_cons_cons, List.lookup_cons, beq_false_of_ne hne]
      exact ih hrest ws

theorem nodup_declare {declared : List String} {name : String} (hd : declared.Nodup)
    (hfresh : name ∉ declared) : (declared ++ [name]).Nodup := by
  refine List.nodup_append.mpr ⟨hd, List.nodup_cons.mpr ⟨List.not_mem_nil, List.nodup_nil⟩, ?_⟩
  intro a ha b hb hab
  rw [hab, List.mem_singleton.mp hb] at ha
  exact hfresh ha

theorem nodup_of_paramErrors {span : Span} {params earlier : List String}
    (h : paramErrors span earlier params = []) (hd : earlier.Nodup) :
    (earlier ++ params).Nodup := by
  induction params generalizing earlier with
  | nil => rwa [List.append_nil]
  | cons name rest ih =>
    obtain ⟨hname, hrest⟩ := List.append_eq_nil_iff.mp h
    have hfresh := redeclareErrors_eq_nil.mp hname
    have hall := ih hrest (nodup_declare hd hfresh)
    rwa [List.append_assoc] at hall

mutual
/-- An accepted statement declares new names only. -/
theorem Statement.nodup_of_errors {fs : List Function} :
    (s : Statement) → (declared : List String) → s.errors fs declared = [] → declared.Nodup →
    (declared ++ s.declares).Nodup
  | .declare name x span, declared, he, hd => by
    have hfresh := redeclareErrors_eq_nil.mp (List.append_eq_nil_iff.mp he).1
    exact nodup_declare hd hfresh
  | .assign _ _ _, declared, he, hd => by rwa [Statement.declares, List.append_nil]
  | .discard _ _, declared, he, hd => by rwa [Statement.declares, List.append_nil]
  | .ret _ _, declared, he, hd => by rwa [Statement.declares, List.append_nil]
  | .cond test yes none _, declared, he, hd =>
    Block.nodup_of_errors yes declared (List.append_eq_nil_iff.mp he).2 hd
  | .cond test yes (some no) _, declared, he, hd => by
    obtain ⟨hfirst, hno⟩ := List.append_eq_nil_iff.mp he
    have hyes := Block.nodup_of_errors yes declared (List.append_eq_nil_iff.mp hfirst).2 hd
    rw [Statement.declares, ← List.append_assoc]
    exact Block.nodup_of_errors no _ hno hyes
  | .loop test body _, declared, he, hd =>
    Block.nodup_of_errors body declared (List.append_eq_nil_iff.mp he).2 hd
theorem Block.nodup_of_errors {fs : List Function} :
    (b : Block) → (declared : List String) → Block.errors fs declared b = [] → declared.Nodup →
    (declared ++ Block.declares b).Nodup
  | [], declared, he, hd => by rwa [Block.declares, List.append_nil]
  | s :: rest, declared, he, hd => by
    obtain ⟨hs, hrest⟩ := List.append_eq_nil_iff.mp he
    rw [Block.declares, ← List.append_assoc]
    exact Block.nodup_of_errors rest _ hrest (Statement.nodup_of_errors s declared hs hd)
end

mutual
theorem Statement.two_mul_declares_le : (s : Statement) → 2 * s.declares.length ≤ s.width
  | .declare _ x _ => Nat.le_add_left 2 x.width
  | .assign _ _ _ => Nat.zero_le _
  | .discard _ _ => Nat.zero_le _
  | .ret _ _ => Nat.zero_le _
  | .cond test yes none _ => by
    have hyes := Block.two_mul_declares_le yes
    rw [Statement.declares, Statement.width]
    omega
  | .cond test yes (some no) _ => by
    have hyes := Block.two_mul_declares_le yes
    have hno := Block.two_mul_declares_le no
    rw [Statement.declares, Statement.width, List.length_append]
    omega
  | .loop test body _ => by
    have hbody := Block.two_mul_declares_le body
    rw [Statement.declares, Statement.width]
    omega
theorem Block.two_mul_declares_le : (b : Block) → 2 * (Block.declares b).length ≤ Block.width b
  | [] => Nat.le_refl 0
  | s :: rest => by
    have hs := Statement.two_mul_declares_le s
    have hrest := Block.two_mul_declares_le rest
    rw [Block.declares, Block.width, List.length_append]
    omega
end

namespace Function

variable {fs : List Function} {f : Function}

theorem nodup_names (h : f.errors fs = []) : f.names.Nodup := by
  obtain ⟨hparams, hbody⟩ := List.append_eq_nil_iff.mp h
  have hd : f.params.Nodup := nodup_of_paramErrors hparams List.nodup_nil
  exact Block.nodup_of_errors f.body f.params hbody hd

/-- What the slots of an invocation start with. -/
theorem map_names_ofArguments (h : f.errors fs = []) {args : List Word}
    (hlen : args.length = f.params.length) :
    f.names.map (Environment.ofArguments f.params args) =
      args ++ List.replicate (f.names.length - args.length) 0 := by
  obtain ⟨hparams, -, hdisjoint⟩ := List.nodup_append.mp (nodup_names h)
  have hzero : (Block.declares f.body).map (Environment.ofArguments f.params args) =
      List.replicate (Block.declares f.body).length 0 := by
    rw [List.map_eq_replicate_iff]
    intro name hname
    exact Environment.ofArguments_eq_zero (fun hp => hdisjoint name hp name hname rfl) args
  have hrest : f.names.length - args.length = (Block.declares f.body).length := by
    rw [names, List.length_append, hlen]
    omega
  rw [hrest, names, List.map_append, Environment.map_ofArguments hparams hlen, hzero]

end Function

end Wordcode
