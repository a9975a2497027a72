import Wordcode.Proofs.Evaluation
import Wordcode.Proofs.Instructions

/-!
Runs that carry out evaluations: to a value, to the fault of a trap, or for at least as many steps
as there was fuel. The stack may overflow first.
-/

namespace Wordcode

inductive Trap.Becomes (size : Nat) : Trap → Fault → Prop where
  | arithmetic (e : ArithmeticError) (address : Nat) :
      Becomes size (.arithmetic e) (.ofArithmetic address e)
  | callDepthExceeded (limit : Nat) :
      Becomes size (.callDepthExceeded limit) (.callDepthExceeded limit)
  | fellOffEnd : Becomes size .fellOffEnd (.fellOffEnd size)

inductive Realizes (size : Nat) : Except Trap Word → Except Fault Word → Prop where
  | value (w : Word) : Realizes size (.ok w) (.ok w)
  | fault {t : Trap} {f : Fault} (h : t.Becomes size f) : Realizes size (.error t) (.error f)

namespace Exec

variable (limit : Nat) (code : Array Word)

def Ends (s : State) (r : Except Fault Word) : Prop :=
  ∃ steps s', runFrom limit code steps s = some ⟨r, s'⟩

def Overflows (s : State) : Prop := ∃ capacity, Ends limit code s (.error (.stackOverflow capacity))

def Reaches (s s' : State) : Prop :=
  ∃ n, ∀ steps, runFrom limit code (n + steps) s = runFrom limit code steps s'

section Runs

variable {limit : Nat} {code : Array Word} {s s' s'' : State} {r r' : Except Fault Word}

theorem runFrom_of_moves {steps : Nat} (h : step limit code s = .ok none s') :
    runFrom limit code (steps + 1) s = runFrom limit code steps s' := by
  simp only [runFrom, EStateM.run, h]

theorem runFrom_of_error {steps : Nat} {f : Fault} (h : step limit code s = .error f s') :
    runFrom limit code (steps + 1) s = some ⟨.error f, s'⟩ := by
  simp only [runFrom, EStateM.run, h]

theorem runFrom_of_answer {steps : Nat} {w : Word} (h : step limit code s = .ok (some w) s') :
    runFrom limit code (steps + 1) s = some ⟨.ok w, s'⟩ := by
  simp only [runFrom, EStateM.run, h]

/-- More steps do not change how a run ends. -/
theorem runFrom_mono {steps more : Nat} {o : Outcome} (hle : steps ≤ more)
    (h : runFrom limit code steps s = some o) : runFrom limit code more s = some o := by
  induction steps generalizing more s with
  | zero => cases h
  | succ steps ih =>
    obtain ⟨more, rfl⟩ : ∃ k, more = k + 1 := ⟨more - 1, by omega⟩
    cases hstep : step limit code s with
    | error f s' =>
      rw [runFrom_of_error hstep] at h ⊢
      exact h
    | ok answer s' =>
      cases answer with
      | none =>
        rw [runFrom_of_moves hstep] at h ⊢
        exact ih (by omega) h
      | some w =>
        rw [runFrom_of_answer hstep] at h ⊢
        exact h

theorem runFrom_eq_none_of_le {steps more : Nat} (hle : steps ≤ more)
    (h : runFrom limit code more s = none) : runFrom limit code steps s = none := by
  cases hrun : runFrom limit code steps s with
  | none => rfl
  | some o =>
    rw [runFrom_mono hle hrun] at h
    cases h

theorem Ends.unique (h : Ends limit code s r) (h' : Ends limit code s r') : r = r' := by
  obtain ⟨n, t, hn⟩ := h
  obtain ⟨m, t', hm⟩ := h'
  have hn' := runFrom_mono (Nat.le_max_left n m) hn
  have hm' := runFrom_mono (Nat.le_max_right n m) hm
  rw [hn'] at hm'
  cases hm'
  rfl

theorem Reaches.refl (s : State) : Reaches limit code s s := ⟨0, fun steps => by rw [Nat.zero_add]⟩

theorem Reaches.trans (h : Reaches limit code s s') (h' : Reaches limit code s' s'') :
    Reaches limit code s s'' := by
  obtain ⟨n, hn⟩ := h
  obtain ⟨m, hm⟩ := h'
  exact ⟨n + m, fun steps => by rw [Nat.add_assoc, hn, hm]⟩

theorem Reaches.of_moves (h : step limit code s = .ok none s') : Reaches limit code s s' :=
  ⟨1, fun steps => by rw [Nat.add_comm, runFrom_of_moves h]⟩

theorem Reaches.ends (h : Reaches limit code s s') (hr : Ends limit code s' r) :
    Ends limit code s r := by
  obtain ⟨n, hn⟩ := h
  obtain ⟨steps, t, ht⟩ := hr
  exact ⟨n + steps, t, by rw [hn, ht]⟩

theorem Reaches.overflows (h : Reaches limit code s s') (ho : Overflows limit code s') :
    Overflows limit code s := by
  obtain ⟨capacity, hc⟩ := ho
  exact ⟨capacity, h.ends hc⟩

theorem Reaches.runFrom_eq_none {steps : Nat} (h : Reaches limit code s s')
    (hs : runFrom limit code steps s' = none) : runFrom limit code steps s = none := by
  obtain ⟨n, hn⟩ := h
  exact runFrom_eq_none_of_le (Nat.le_add_left steps n) ((hn steps).trans hs)

end Runs

/-- How the run from `s` goes for an evaluation that comes to `r`; `Q` relates a value to the
configuration that the run goes on from. -/
def Carries {α : Type} (fuel : Nat) (s : State) (Q : α → Config → Prop) :
    Option (Except Trap α) → Prop
  | none => runFrom limit code fuel s = none
  | some (.error t) => ∃ f, t.Becomes code.size f ∧ Ends limit code s (.error f)
  | some (.ok a) => ∃ s' c, Reaches limit code s s' ∧ s'.Shows c ∧ Q a c

def Simulates {α : Type} (fuel : Nat) (c : Config) (r : Evaluation α) (Q : α → Config → Prop) :
    Prop :=
  ∀ s : State, s.Shows c → Overflows limit code s ∨ Carries limit code fuel s Q r.run

section Rules

variable {limit : Nat} {code : Array Word} {α β : Type} {fuel : Nat} {c c' : Config}
  {s s' : State} {Q : α → Config → Prop} {R : β → Config → Prop} {r : Evaluation α}

theorem Carries.of_reaches {x : Option (Except Trap α)} (h : Reaches limit code s s')
    (hx : Carries limit code fuel s' Q x) : Carries limit code fuel s Q x := by
  match x, hx with
  | none, hx => exact h.runFrom_eq_none hx
  | some (.error t), ⟨f, ht, hf⟩ => exact ⟨f, ht, h.ends hf⟩
  | some (.ok a), ⟨s'', c'', hr, hs, hq⟩ => exact ⟨s'', c'', h.trans hr, hs, hq⟩

theorem Carries.of_le {less : Nat} {x : Option (Except Trap α)} (hle : less ≤ fuel)
    (hx : Carries limit code fuel s Q x) : Carries limit code less s Q x := by
  match x, hx with
  | none, hx => exact runFrom_eq_none_of_le hle hx
  | some (.error t), hx => exact hx
  | some (.ok a), hx => exact hx

theorem Simulates.of_le {less : Nat} (hle : less ≤ fuel) (h : Simulates limit code fuel c r Q) :
    Simulates limit code less c r Q :=
  fun s hs => (h s hs).imp_right (Carries.of_le hle)

theorem simulates_pure {a : α} (h : Q a c) : Simulates limit code fuel c (pure a) Q :=
  fun s hs => Or.inr ⟨s, c, Reaches.refl s, hs, h⟩

theorem simulates_outOfFuel : Simulates limit code 0 c Evaluation.outOfFuel Q :=
  fun _ _ => Or.inr rfl

theorem simulates_throw {t : Trap} {f : Fault} (h : Raises (step limit code) c f)
    (ht : t.Becomes code.size f) : Simulates limit code fuel c (throw t) Q := by
  intro s hs
  rcases h s hs with ⟨s', hstep⟩ | ⟨n, s', hstep⟩
  · exact Or.inr ⟨f, ht, 1, s', runFrom_of_error hstep⟩
  · exact Or.inl ⟨n, 1, s', runFrom_of_error hstep⟩

/-- A step in front lengthens the run. -/
theorem Moves.simulates_succ (h : Moves limit code c c') (hr : Simulates limit code fuel c' r Q) :
    Simulates limit code (fuel + 1) c r Q := by
  intro s hs
  rcases h s hs with ⟨s', hstep, hs'⟩ | ⟨n, s', hstep⟩
  · rcases hr s' hs' with ho | hx
    · exact Or.inl ((Reaches.of_moves hstep).overflows ho)
    · right
      cases hrun : r.run with
      | none =>
        rw [hrun] at hx
        exact (runFrom_of_moves hstep).trans hx
      | some y =>
        rw [hrun] at hx
        -- A value or a trap is carried out with any number of steps.
        have hy : Carries limit code (fuel + 1) s' Q (some y) := by
          cases y with
          | error t => exact hx
          | ok a => exact hx
        exact hy.of_reaches (Reaches.of_moves hstep)
  · exact Or.inl ⟨n, 1, s', runFrom_of_error hstep⟩

theorem Moves.simulates (h : Moves limit code c c') (hr : Simulates limit code fuel c' r Q) :
    Simulates limit code fuel c r Q :=
  (h.simulates_succ hr).of_le (Nat.le_succ fuel)

theorem Simulates.bind {k : α → Evaluation β} (h : Simulates limit code fuel c r Q)
    (hk : ∀ a c', Q a c' → Simulates limit code fuel c' (k a) R) :
    Simulates limit code fuel c (r >>= k) R := by
  intro s hs
  rcases h s hs with ho | hx
  · exact Or.inl ho
  · rw [ExceptT.run_bind]
    match r.run, hx with
    | none, hx => exact Or.inr hx
    | some (.error t), hx => exact Or.inr hx
    | some (.ok a), ⟨s', c', hreach, hs', hq⟩ =>
      rcases hk a c' hq s' hs' with ho | hx'
      · exact Or.inl (hreach.overflows ho)
      · exact Or.inr (hx'.of_reaches hreach)

end Rules

end Exec

end Wordcode
