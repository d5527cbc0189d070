/-
# Definitions of auxiliary variables, as clauses and as nodes

`iff` of `latin.kt` writes every definition twice: as clauses of the formula, and as a node of
the net, from which the solver computes the variable. The two agree in every branch but the one
for a bare variable, where the clauses say that the two variables differ.
-/

import LatinSquares.LocalSearch.Ignored

namespace LatinSquares.LocalSearch

open LatinSquares.Generator (Expression GenState iff)

/-- A bare variable, whatever its mark. -/
def IsVariable (e : Expression) : Prop :=
  ∃ name isImportant, e = .clause ⟨.literal (.var name), isImportant⟩

/-- What `iff` has a branch for: a constant, a conjunction or disjunction of literals, or a
variable. Variables are numbered `1..c`. -/
def Accepted (c : Nat) (e : Expression) : Prop :=
  e.Definable c ∨ ∃ name isImportant, 1 ≤ name ∧ name ≤ c ∧
    e = .clause ⟨.literal (.var name), isImportant⟩

/-- The clauses and the node define `v` by `e`. The clauses hold when `v` has the truth value of
`e`, and the node, as the solver reads it, computes that value. -/
def DefinesTwice (v : Nat) (e : Expression) : Prop :=
  ∀ s : GenState, ∃ clauses node,
    iff v e s = some (clauses, { s with nodes := s.nodes ++ [node] }) ∧
    node.var = v ∧ ∀ α, (clauses.eval α = true ↔ α v = e.eval α) ∧
      (readNode node).propagate (unitsOf α) [] = e.eval α

variable {v c : Nat} {e : Expression} {α : Nat → Bool}

/-- A node for a conjunction of literals is read as one. -/
theorem propagate_andIff {args : List Generator.Literal} (h : ∀ l ∈ args, l.Proper c) :
    (readNode (.andIff v args)).propagate (unitsOf α) [] = args.all (Generator.Literal.eval α) := by
  rw [Node.propagate_nil _ fun arg _ => rfl]
  exact (filterMap_readLiteral h).2.1 α

/-- A node for a disjunction of literals is read as one. -/
theorem propagate_orIff {args : List Generator.Literal} (h : ∀ l ∈ args, l.Proper c) :
    (readNode (.orIff v args)).propagate (unitsOf α) [] = args.any (Generator.Literal.eval α) := by
  rw [Node.propagate_nil _ fun arg _ => rfl]
  exact (filterMap_readLiteral h).2.2 α

/-- All branches of `iff` but the one for a variable. -/
theorem definesTwice_of_definable (he : e.Definable c) : DefinesTwice v e := by
  intro s
  cases he with
  | constTrue =>
      refine ⟨.literal (.var v), .value v true, rfl, rfl, fun α => ⟨?_, rfl⟩⟩
      simp
  | constFalse =>
      refine ⟨.literal (.notVar v), .value v false, rfl, rfl, fun α => ⟨?_, rfl⟩⟩
      simp
  | @conj cs h =>
      obtain ⟨args, hargs, hproper, heval, -⟩ := Generator.mapM_literal? h
      refine ⟨Generator.iffAnd v args, .andIff v args, ?_, rfl, fun α => ⟨?_, ?_⟩⟩
      · simp only [iff, hargs]
        rfl
      · rw [Generator.eval_iffAnd, heval, Expression.eval_conj]
      · rw [propagate_andIff hproper, heval, Expression.eval_conj]
  | @disj ls isImportant h =>
      refine ⟨Generator.iffOr v ls, .orIff v ls, rfl, rfl, fun α => ⟨?_, ?_⟩⟩
      · rw [Generator.eval_iffOr, Expression.eval_clause, Generator.Clause.eval_disj]
      · rw [propagate_orIff h, Expression.eval_clause, Generator.Clause.eval_disj]

/-- The clauses for a variable exclude that both are true. -/
theorem not_definesTwice_variable {name : Nat} {isImportant : Bool} :
    ¬ DefinesTwice v (.clause ⟨.literal (.var name), isImportant⟩) := by
  intro h
  obtain ⟨clauses, node, hrun, -, hdefines⟩ := h {}
  cases hrun
  have htrue := (hdefines fun _ => true).1.mpr rfl
  simp at htrue

/-- `iff` defines a variable by the clauses and by the node if and only if the expression is not
a variable itself. -/
theorem definesTwice_iff (he : Accepted c e) : DefinesTwice v e ↔ ¬ IsVariable e := by
  constructor
  · rintro h ⟨name, isImportant, rfl⟩
    exact not_definesTwice_variable h
  · intro hvariable
    rcases he with he | ⟨name, isImportant, -, -, heq⟩
    · exact definesTwice_of_definable he
    · exact absurd ⟨name, isImportant, heq⟩ hvariable

theorem definesTwice_conjunction :
    DefinesTwice 3 (.conj [⟨.literal (.var 1), true⟩, ⟨.literal (.notVar 2), true⟩]) := by
  refine (definesTwice_iff (c := 2) (Or.inl (.conj ?_))).mpr ?_
  · simp [Generator.Literal.proper_var, Generator.Literal.proper_notVar]
  · rintro ⟨name, isImportant, heq⟩
    cases heq

/-- The clauses of `iff` for the variables 2 and 1 do not hold when both are true. -/
theorem not_definesTwice :
    ¬ ∀ (v c : Nat) (e : Expression), Accepted c e → v ∉ e.names → DefinesTwice v e := by
  intro h
  have haccepted : Accepted 1 (.literal (.var 1)) := Or.inr ⟨1, true, le_rfl, le_rfl, rfl⟩
  exact not_definesTwice_variable (h 2 1 _ haccepted (by decide))

end LatinSquares.LocalSearch
