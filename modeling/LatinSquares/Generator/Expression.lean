/-
# Expressions of the generator

`Expression.kt` has the classes `True`, `False`, `Variable`, `Not`, `Or` and `And`
and the functions `not`, `or` and `and` that simplify constants while they build.
Every formula the generator makes is clausal: `Not` stands over a variable, an
`Or` lists literals and an `And` lists literals and `Or`s, because the
constructors of `Or` and `And` flatten nested arguments of their own kind and
`or` rejects an `And` ("not cnf"). The types below admit these forms only, so
that error and the nested forms cannot arise.

`isImportant` is a mutable mark on an expression object. It is read in one place,
for the clauses of a finished `CNF`, so the model keeps it next to each clause
an `And` lists. `equals` ignores it.
-/

import LatinSquares.Math.Projection

namespace LatinSquares.Generator

open LatinSquares.Math

/-- The constants, a variable, and `Not` of a variable. The name of a variable is
the decimal numeral of the counter value it was made from; the model keeps the number. -/
inductive Literal where
  | constFalse
  | constTrue
  | var (name : Nat)
  | notVar (name : Nat)
  deriving DecidableEq, Repr, Inhabited

namespace Literal

/-- `not` on a literal. -/
def not : Literal → Literal
  | notVar name => var name
  | constTrue => constFalse
  | constFalse => constTrue
  | var name => notVar name

/-- The names an expression mentions; the constants have the empty name, which is
not counted. -/
def names : Literal → List Nat
  | constFalse => []
  | constTrue => []
  | var name => [name]
  | notVar name => [name]

/-- Truth under an assignment. -/
def eval (α : Assignment) : Literal → Bool
  | constFalse => false
  | constTrue => true
  | var name => α name
  | notVar name => !α name

@[simp]
theorem eval_constFalse (α : Assignment) : constFalse.eval α = false := rfl

@[simp]
theorem eval_constTrue (α : Assignment) : constTrue.eval α = true := rfl

@[simp]
theorem eval_var (α : Assignment) (name : Nat) :
    (var name).eval α = α name := rfl

@[simp]
theorem eval_notVar (α : Assignment) (name : Nat) :
    (notVar name).eval α = !α name := rfl

@[simp]
theorem eval_not (α : Assignment) (l : Literal) : l.not.eval α = !l.eval α := by
  cases l <;> simp [not]

@[simp]
theorem names_not (l : Literal) : l.not.names = l.names := by
  cases l <;> rfl

end Literal

/-- An expression that is not an `And`: a literal or an `Or`. -/
inductive Clause where
  | literal (l : Literal)
  | disj (args : List Literal)
  deriving DecidableEq, Repr, Inhabited

namespace Clause

/-- `args` of the expression; a literal is its own argument. -/
def args : Clause → List Literal
  | literal l => [l]
  | disj args => args

def names (c : Clause) : List Nat := c.args.flatMap Literal.names

def eval (α : Assignment) (c : Clause) : Bool := c.args.any (Literal.eval α)

theorem names_literal (l : Literal) : (literal l).names = l.names := by simp [names, args]

@[simp]
theorem eval_literal (α : Assignment) (l : Literal) : (literal l).eval α = l.eval α := by
  simp [eval, args]

@[simp]
theorem eval_disj (α : Assignment) (ls : List Literal) :
    (disj ls).eval α = ls.any (Literal.eval α) := rfl

/-- `or(it.args)` for an `Or` found among the arguments of `or`; its own arguments
are literals. -/
def orArgs (ls : List Literal) : Clause :=
  if Literal.constTrue ∈ ls then literal .constTrue
  else match ls.filter (· ≠ .constFalse) with
    | [] => literal .constFalse
    | ls => disj ls

/-- What one argument contributes to the `Or` that `or` builds. -/
def disjuncts : Clause → List Literal
  | disj ls => (orArgs ls).args
  | literal .constFalse => []
  | literal l => [l]

/-- `or`: a true argument decides it, false arguments are dropped. -/
def or (exprs : List Clause) : Clause :=
  if literal .constTrue ∈ exprs then literal .constTrue
  else match exprs.flatMap disjuncts with
    | [] => literal .constFalse
    | ls => disj ls

theorem eval_orArgs (α : Assignment) (ls : List Literal) :
    (orArgs ls).eval α = ls.any (Literal.eval α) := by
  unfold orArgs
  split
  · next htrue =>
      have hany : ls.any (Literal.eval α) = true :=
        List.any_eq_true.mpr ⟨.constTrue, htrue, rfl⟩
      simp [hany]
  · have hfilter : (ls.filter (· ≠ .constFalse)).any (Literal.eval α) =
        ls.any (Literal.eval α) := by
      rw [List.any_filter]
      congr 1
      funext l
      cases l <;> simp
    split
    · next hnil => rw [← hfilter, hnil]; simp
    · rw [eval_disj, hfilter]

theorem any_eval_disjuncts (α : Assignment) (c : Clause) :
    c.disjuncts.any (Literal.eval α) = c.eval α := by
  cases c with
  | disj ls => exact eval_orArgs α ls
  | literal l => cases l <;> simp [disjuncts]

/-- `or` is disjunction. -/
@[simp]
theorem eval_or (α : Assignment) (exprs : List Clause) :
    (or exprs).eval α = exprs.any (eval α) := by
  unfold or
  split
  · next htrue =>
      have hany : exprs.any (eval α) = true :=
        List.any_eq_true.mpr ⟨literal .constTrue, htrue, by simp⟩
      simp [hany]
  · have hflat : (exprs.flatMap disjuncts).any (Literal.eval α) = exprs.any (eval α) := by
      rw [List.any_flatMap]
      simp only [any_eval_disjuncts]
    split
    · next hnil => rw [← hflat, hnil]; simp
    · rw [eval_disj, hflat]

end Clause

/-- A clause object together with its `isImportant` mark. -/
structure Conjunct where
  clause : Clause
  isImportant : Bool := true
  deriving DecidableEq, Repr, Inhabited

/-- An expression: one clause, or an `And` of clauses. -/
inductive Expression where
  | clause (c : Conjunct)
  | conj (args : List Conjunct)
  deriving DecidableEq, Repr, Inhabited

namespace Expression

/-- A literal as an expression. -/
def literal (l : Literal) : Expression := clause ⟨.literal l, true⟩

/-- A freshly built `Or`, or the literal `or` reduced it to. -/
def ofClause (c : Clause) : Expression := clause ⟨c, true⟩

/-- The object `True`. -/
abbrev constTrue : Expression := literal .constTrue

/-- The object `False`. -/
abbrev constFalse : Expression := literal .constFalse

/-- `it is True`. -/
def isTrue : Expression → Bool
  | clause c => c.clause = .literal .constTrue
  | conj _ => false

/-- `it is False`. -/
def isFalse : Expression → Bool
  | clause c => c.clause = .literal .constFalse
  | conj _ => false

/-- `args` where a list of clauses is wanted: an `And` has its arguments, a literal
itself. The encoders ask an `Or` for its clauses nowhere; it counts as one. -/
def args : Expression → List Conjunct
  | clause c => [c]
  | conj args => args

def eval (α : Assignment) (e : Expression) : Bool := e.args.all fun c => c.clause.eval α

@[simp]
theorem eval_clause (α : Assignment) (c : Conjunct) : (clause c).eval α = c.clause.eval α := by
  simp [eval, args]

@[simp]
theorem eval_conj (α : Assignment) (cs : List Conjunct) :
    (conj cs).eval α = cs.all fun c => c.clause.eval α := rfl

@[simp]
theorem eval_literal (α : Assignment) (l : Literal) : (literal l).eval α = l.eval α := by
  simp [literal]

@[simp]
theorem eval_ofClause (α : Assignment) (c : Clause) : (ofClause c).eval α = c.eval α := by
  simp [ofClause]

/-- `and(it.args)` for an `And` found among the arguments of `and`; its own
arguments are no `And`s. -/
def andArgs (cs : List Conjunct) : Expression :=
  if cs.any fun c => c.clause = .literal .constFalse then constFalse
  else match cs.filter fun c => c.clause ≠ .literal .constTrue with
    | [] => constTrue
    | cs => conj cs

/-- What one argument contributes to the `And` that `and` builds. -/
def conjuncts : Expression → List Conjunct
  | conj cs => (andArgs cs).args
  | clause c => if c.clause = .literal .constTrue then [] else [c]

/-- `and`: a false argument decides it, true arguments are dropped. -/
def and (exprs : List Expression) : Expression :=
  if exprs.any isFalse then constFalse
  else match exprs.flatMap conjuncts with
    | [] => constTrue
    | cs => conj cs

/-- `.also { it.isImportant = isImportant }`. -/
def mark (isImportant : Bool) : Expression → Expression
  | clause c => clause { c with isImportant }
  | conj cs => conj cs

/-- `.also { it.args.forEach { it.isImportant = isImportant } }`, as used on the
result of `and`. -/
def markArgs (isImportant : Bool) : Expression → Expression
  | clause c => clause { c with isImportant }
  | conj cs => conj (cs.map fun c => { c with isImportant })

theorem eval_andArgs (α : Assignment) (cs : List Conjunct) :
    (andArgs cs).eval α = cs.all fun c => c.clause.eval α := by
  unfold andArgs
  split
  · next hfalse =>
      obtain ⟨c, hc, hclause⟩ := List.any_eq_true.mp hfalse
      have hall : (cs.all fun c => c.clause.eval α) = false :=
        List.all_eq_false.mpr ⟨c, hc, by simp [of_decide_eq_true hclause]⟩
      simp [hall]
  · have hfilter : ((cs.filter fun c => c.clause ≠ .literal .constTrue).all
        fun c => c.clause.eval α) = cs.all fun c => c.clause.eval α := by
      rw [List.all_filter]
      congr 1
      funext c
      by_cases hc : c.clause = .literal .constTrue <;> simp [hc]
    split
    · next hnil => rw [← hfilter, hnil]; simp
    · rw [eval_conj, hfilter]

theorem all_eval_conjuncts (α : Assignment) (e : Expression) :
    (e.conjuncts.all fun c => c.clause.eval α) = e.eval α := by
  cases e with
  | conj cs => exact eval_andArgs α cs
  | clause c =>
      by_cases hc : c.clause = .literal .constTrue <;> simp [conjuncts, hc]

/-- `and` is conjunction. -/
@[simp]
theorem eval_and (α : Assignment) (exprs : List Expression) :
    (and exprs).eval α = exprs.all (eval α) := by
  unfold and
  split
  · next hfalse =>
      obtain ⟨e, he, hclause⟩ := List.any_eq_true.mp hfalse
      have heval : e.eval α = false := by
        cases e with
        | conj cs => simp [isFalse] at hclause
        | clause c => simp [of_decide_eq_true hclause]
      have hall : exprs.all (eval α) = false := List.all_eq_false.mpr ⟨e, he, by simp [heval]⟩
      simp [hall]
  · have hflat : ((exprs.flatMap conjuncts).all fun c => c.clause.eval α) =
        exprs.all (eval α) := by
      rw [List.all_flatMap]
      simp only [all_eval_conjuncts]
    split
    · next hnil => rw [← hflat, hnil]; simp
    · rw [eval_conj, hflat]

@[simp]
theorem eval_mark (α : Assignment) (isImportant : Bool) (e : Expression) :
    (e.mark isImportant).eval α = e.eval α := by
  cases e <;> simp [mark]

@[simp]
theorem eval_markArgs (α : Assignment) (isImportant : Bool) (e : Expression) :
    (e.markArgs isImportant).eval α = e.eval α := by
  cases e <;> simp [markArgs, List.all_map, Function.comp_def]

end Expression

end LatinSquares.Generator
