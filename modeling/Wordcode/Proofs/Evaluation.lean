import Wordcode.Proofs.StaticCheck
import Wordcode.Operator.Arithmetic

/-!
What a program means, told on its tree. Programs may run forever, so an evaluation is given fuel,
which every call and every round of a loop uses up.
-/

namespace Wordcode

abbrev Environment := String → Word

namespace Environment

def ofArguments (params : List String) (args : List Word) : Environment :=
  fun name => ((params.zip args).lookup name).getD 0

def set (env : Environment) (name : String) (w : Word) : Environment :=
  fun other => if other = name then w else env other

end Environment

inductive Trap where
  | arithmetic (error : ArithmeticError)
  | callDepthExceeded (limit : Nat)
  | fellOffEnd
deriving DecidableEq

/-- A value or a trap, unless the fuel runs out. -/
abbrev Evaluation := ExceptT Trap Option

def Evaluation.outOfFuel {α : Type} : Evaluation α := ExceptT.mk none

abbrev Calls := String → List Word → Evaluation Word

def BinaryOperator.eval (op : BinaryOperator) (a b : Word) : Evaluation Word :=
  match op.apply a b with
  | .ok w => pure w
  | .error e => throw (.arithmetic e)

mutual
def Operand.eval (call : Calls) (env : Environment) : Operand → Evaluation Word
  | .int value => pure value
  | .var name _ => pure (env name)
  | .unary op x => do
    let a ← x.eval call env
    return op.apply a
  | .chain first rest => do
    let a ← first.eval call env
    Links.eval call env rest a
  | .group first rest => do
    let a ← first.eval call env
    Links.eval call env rest a
  | .call name args _ => do
    let ws ← Operand.evalAll call env args
    call name ws
def Links.eval (call : Calls) (env : Environment) : Links → Word → Evaluation Word
  | [], a => pure a
  | (op, x) :: rest, a => do
    let b ← x.eval call env
    let w ← op.eval a b
    Links.eval call env rest w
def Operand.evalAll (call : Calls) (env : Environment) : List Operand → Evaluation (List Word)
  | [] => pure []
  | x :: rest => do
    let w ← x.eval call env
    let ws ← Operand.evalAll call env rest
    return w :: ws
end

inductive Flow where
  | next (env : Environment)
  | returned (value : Word)

def Flow.andThen (flow : Flow) (rest : Environment → Evaluation Flow) : Evaluation Flow :=
  match flow with
  | .next env => rest env
  | .returned value => pure (.returned value)

def rounds (test : Environment → Evaluation Word) (body : Environment → Evaluation Flow) :
    Nat → Environment → Evaluation Flow
  | 0, _ => Evaluation.outOfFuel
  | fuel + 1, env => do
    let w ← test env
    if w = 0 then pure (.next env)
    else
      let flow ← body env
      flow.andThen (rounds test body fuel)

mutual
def Statement.exec (call : Calls) (fuel : Nat) : Statement → Environment → Evaluation Flow
  | .declare name x _, env => do
    let w ← x.eval call env
    return .next (env.set name w)
  | .assign name x _, env => do
    let w ← x.eval call env
    return .next (env.set name w)
  | .cond test yes none _, env => do
    let w ← test.eval call env
    if w = 0 then pure (.next env) else Block.exec call fuel yes env
  | .cond test yes (some no) _, env => do
    let w ← test.eval call env
    if w = 0 then Block.exec call fuel no env else Block.exec call fuel yes env
  | .loop test body _, env =>
    rounds (fun env => test.eval call env) (fun env => Block.exec call fuel body env) fuel env
  | .discard x _, env => do
    let _ ← x.eval call env
    return .next env
  | .ret x _, env => do
    let w ← x.eval call env
    return .returned w
def Block.exec (call : Calls) (fuel : Nat) : Block → Environment → Evaluation Flow
  | [], env => pure (.next env)
  | s :: rest, env => do
    let flow ← s.exec call fuel env
    flow.andThen (fun env => Block.exec call fuel rest env)
end

/-- An invocation of a body. One that ends without a return has no value. -/
def Function.invoke (call : Calls) (fuel : Nat) (f : Function) (args : List Word) :
    Evaluation Word := do
  match ← Block.exec call fuel f.body (.ofArguments f.params args) with
  | .returned w => pure w
  | .next _ => throw .fellOffEnd

namespace Program

def call (p : Program) (limit : Nat) : Nat → Nat → Calls
  | 0, _ => fun _ _ => Evaluation.outOfFuel
  | fuel + 1, depth => fun name args =>
    if limit ≤ depth then throw (.callDepthExceeded limit)
    else
      match p.functions.find? (·.name == name) with
      | some f => f.invoke (p.call limit fuel (depth + 1)) fuel args
      -- An accepted program calls no other name.
      | none => Evaluation.outOfFuel

section Call

variable {p : Program} {limit fuel depth : Nat} {name : String} {args : List Word}

theorem call_of_limit_le (h : limit ≤ depth) :
    p.call limit (fuel + 1) depth name args = throw (.callDepthExceeded limit) := by
  simp only [call, if_pos h]

theorem call_of_lt_limit {f : Function} (h : depth < limit)
    (hf : p.functions.find? (·.name == name) = some f) :
    p.call limit (fuel + 1) depth name args =
      f.invoke (p.call limit fuel (depth + 1)) fuel args := by
  simp only [call, if_neg (Nat.not_le.mpr h), hf]

end Call

/-- The meaning of a program when calls may nest `limit` deep. -/
def eval (p : Program) (limit fuel : Nat) : Evaluation Word :=
  p.mainFunction.invoke (p.call limit fuel 0) fuel []

end Program

def Evaluation.Extends {α : Type} (r r' : Evaluation α) : Prop :=
  ∀ x, r.run = some x → r'.run = some x

namespace Evaluation.Extends

variable {α β : Type}

theorem refl (r : Evaluation α) : Extends r r := fun _ h => h

theorem outOfFuel (r : Evaluation α) : Extends Evaluation.outOfFuel r := fun _ h => nomatch h

theorem bind {r r' : Evaluation α} {k k' : α → Evaluation β} (h : Extends r r')
    (hk : ∀ a, Extends (k a) (k' a)) : Extends (r >>= k) (r' >>= k') := by
  intro x hx
  rw [ExceptT.run_bind] at hx ⊢
  cases hr : r.run with
  | none =>
    rw [hr] at hx
    cases hx
  | some y =>
    rw [hr] at hx
    rw [h y hr]
    cases y with
    | error t => exact hx
    | ok a => exact hk a x hx

end Evaluation.Extends

section Fuel

open Evaluation

def Calls.Extends (call call' : Calls) : Prop :=
  ∀ name args, Evaluation.Extends (call name args) (call' name args)

variable {call call' : Calls}

mutual
theorem Operand.eval_extends (hcall : Calls.Extends call call') (env : Environment) :
    (x : Operand) → Extends (x.eval call env) (x.eval call' env)
  | .int _ => .refl _
  | .var _ _ => .refl _
  | .unary _ x => (Operand.eval_extends hcall env x).bind fun _ => .refl _
  | .chain first rest | .group first rest =>
    (Operand.eval_extends hcall env first).bind (Links.eval_extends hcall env rest)
  | .call name args _ => (Operand.evalAll_extends hcall env args).bind (hcall name)
theorem Links.eval_extends (hcall : Calls.Extends call call') (env : Environment) :
    (rest : Links) → (a : Word) → Extends (Links.eval call env rest a) (Links.eval call' env rest a)
  | [], _ => .refl _
  | (_, x) :: rest, _ =>
    (Operand.eval_extends hcall env x).bind fun _ =>
      (Extends.refl _).bind (Links.eval_extends hcall env rest)
theorem Operand.evalAll_extends (hcall : Calls.Extends call call') (env : Environment) :
    (xs : List Operand) → Extends (Operand.evalAll call env xs) (Operand.evalAll call' env xs)
  | [] => .refl _
  | x :: rest =>
    (Operand.eval_extends hcall env x).bind fun _ =>
      (Operand.evalAll_extends hcall env rest).bind fun _ => .refl _
end

theorem Flow.andThen_extends {rest rest' : Environment → Evaluation Flow}
    (h : ∀ env, Extends (rest env) (rest' env)) (flow : Flow) :
    Extends (flow.andThen rest) (flow.andThen rest') := by
  cases flow with
  | next env => exact h env
  | returned w => exact .refl _

theorem rounds_extends {test test' : Environment → Evaluation Word}
    {body body' : Environment → Evaluation Flow} (htest : ∀ env, Extends (test env) (test' env))
    (hbody : ∀ env, Extends (body env) (body' env)) {fuel more : Nat} (hle : fuel ≤ more)
    (env : Environment) : Extends (rounds test body fuel env) (rounds test' body' more env) := by
  induction fuel generalizing more env with
  | zero => exact .outOfFuel _
  | succ fuel ih =>
    obtain ⟨more, rfl⟩ : ∃ k, more = k + 1 := ⟨more - 1, by omega⟩
    refine (htest env).bind ?_
    intro w
    by_cases hw : w = 0
    · rw [if_pos hw, if_pos hw]
      exact .refl _
    · rw [if_neg hw, if_neg hw]
      exact (hbody env).bind (Flow.andThen_extends (ih (by omega)))

variable {fuel more : Nat}

mutual
theorem Statement.exec_extends (hcall : Calls.Extends call call') (hle : fuel ≤ more) :
    (s : Statement) → (env : Environment) → Extends (s.exec call fuel env) (s.exec call' more env)
  | .declare _ x _, env => (Operand.eval_extends hcall env x).bind fun _ => .refl _
  | .assign _ x _, env => (Operand.eval_extends hcall env x).bind fun _ => .refl _
  | .cond test yes none _, env => by
    refine (Operand.eval_extends hcall env test).bind ?_
    intro w
    by_cases hw : w = 0
    · rw [if_pos hw, if_pos hw]
      exact .refl _
    · rw [if_neg hw, if_neg hw]
      exact Block.exec_extends hcall hle yes env
  | .cond test yes (some no) _, env => by
    refine (Operand.eval_extends hcall env test).bind ?_
    intro w
    by_cases hw : w = 0
    · rw [if_pos hw, if_pos hw]
      exact Block.exec_extends hcall hle no env
    · rw [if_neg hw, if_neg hw]
      exact Block.exec_extends hcall hle yes env
  | .loop test body _, env =>
    rounds_extends (fun env => Operand.eval_extends hcall env test)
      (fun env => Block.exec_extends hcall hle body env) hle env
  | .discard x _, env => (Operand.eval_extends hcall env x).bind fun _ => .refl _
  | .ret x _, env => (Operand.eval_extends hcall env x).bind fun _ => .refl _
theorem Block.exec_extends (hcall : Calls.Extends call call') (hle : fuel ≤ more) :
    (b : Block) → (env : Environment) →
    Extends (Block.exec call fuel b env) (Block.exec call' more b env)
  | [], _ => .refl _
  | s :: rest, env =>
    (Statement.exec_extends hcall hle s env).bind
      (Flow.andThen_extends fun env => Block.exec_extends hcall hle rest env)
end

theorem Function.invoke_extends (hcall : Calls.Extends call call') (hle : fuel ≤ more)
    (f : Function) (args : List Word) :
    Extends (f.invoke call fuel args) (f.invoke call' more args) :=
  (Block.exec_extends hcall hle f.body _).bind fun _ => .refl _

end Fuel

namespace Program

open Evaluation

variable {p : Program} {limit fuel more : Nat}

theorem call_extends (hle : fuel ≤ more) (depth : Nat) (name : String) (args : List Word) :
    Extends (p.call limit fuel depth name args) (p.call limit more depth name args) := by
  induction fuel generalizing more depth name args with
  | zero => exact .outOfFuel _
  | succ fuel ih =>
    obtain ⟨more, rfl⟩ : ∃ k, more = k + 1 := ⟨more - 1, by omega⟩
    by_cases hd : limit ≤ depth
    · rw [call_of_limit_le hd, call_of_limit_le hd]
      exact .refl _
    · cases hf : p.functions.find? (·.name == name) with
      | none =>
        simp only [call, if_neg hd, hf]
        exact .refl _
      | some f =>
        rw [call_of_lt_limit (by omega) hf, call_of_lt_limit (by omega) hf]
        exact Function.invoke_extends (ih (by omega) (depth + 1)) (by omega) f args

def Evaluates (p : Program) (limit : Nat) (x : Except Trap Word) : Prop :=
  ∃ fuel, (p.eval limit fuel).run = some x

/-- A program comes to one thing at most. -/
theorem Evaluates.unique {x y : Except Trap Word} (hx : p.Evaluates limit x)
    (hy : p.Evaluates limit y) : x = y := by
  obtain ⟨n, hn⟩ := hx
  obtain ⟨m, hm⟩ := hy
  have hext {fuel : Nat} (hle : fuel ≤ max n m) :
      Extends (p.eval limit fuel) (p.eval limit (max n m)) :=
    Function.invoke_extends (call_extends hle 0) hle p.mainFunction []
  have hn' := hext (Nat.le_max_left n m) x hn
  have hm' := hext (Nat.le_max_right n m) y hm
  rw [hn'] at hm'
  exact Option.some.inj hm'

end Program

end Wordcode
