/-
# Reducing the clauses by their units

`reduce` of `solver/HillClimbingSolver.cpp`, on the tables the constructor has built before.
The literals of unit clauses are fixed one after the other. A literal that becomes false is
erased from the clauses at once, while the clauses that become true are only noted and shrink
to a unit at the end.
-/

import LatinSquares.LocalSearch.Construct
import LatinSquares.Math.Loops
import LatinSquares.Math.UnitPropagation
import Mathlib.Data.List.GetD

namespace LatinSquares.LocalSearch

open LatinSquares.Math

/-- The other literal of the same variable. -/
def Literal.negate (l : Literal) : Literal := ⟨l.number, !l.value⟩

/-- The first literal with the given number is erased. -/
def Clause.eraseNumber (number : Nat) (clause : Clause) : Clause :=
  ⟨clause.literals.eraseP fun l => l.number == number⟩

namespace MetaVariable

/-- The values of the cell, each with the literals it sets. -/
def domain (m : MetaVariable) : List (List Literal × UInt8) := m.variables_.zip m.values

/-- The values that set the literal are copied to `newMetaVar` and `newValues`. -/
def narrow (literal : Literal) (m : MetaVariable) : MetaVariable :=
  let kept := m.domain.filter fun entry => literal ∈ entry.1
  { m with variables_ := kept.map Prod.fst, values := kept.map Prod.snd }

end MetaVariable

/-- `literal_to_meta_variable`. The entry `variables[0]` is read without a check. -/
def indexMetaVariables (metaVariables : List MetaVariable) : Option (Nat → Option Nat) :=
  metaVariables.zipIdx.foldlM (fun table p => do
    let first ← p.1.variables_.head?
    return first.foldl (fun table variable_ =>
      Function.update table variable_.number (some p.2)) table) fun _ => none

/-- A vector made long enough for an index. -/
def growFor {A : Type} (index : Nat) (fill : A) (l : List A) : List A :=
  l ++ List.replicate (index + 1 - l.length) fill

/-- `metaValues` with a place for the cell of a meta variable. -/
def reserve (metaValues : List (List (List UInt32))) (m : MetaVariable) :
    List (List (List UInt32)) :=
  (growFor m.matrixIndex.toNat [] metaValues).modify m.matrixIndex.toNat fun rows =>
    (growFor m.rowIndex.toNat [] rows).modify m.rowIndex.toNat
      (growFor m.columnIndex.toNat 0)

namespace HillClimbingSolver

/-- The solver when the constructor calls `reduce`. -/
def unreduced (clauses : List Clause) (toCompute : List Nat) (weights : Nat → UInt32)
    (net : Net) (metaVariables : List MetaVariable) : Option HillClimbingSolver := do
  let literalToMetaVariable ← indexMetaVariables metaVariables
  return {
    clauses, weights, net, metaVariables, literalToMetaVariable
    propagated := fun _ => 2
    metaValues := metaVariables.foldl reserve []
    satisfied := fun _ => false
    literalToUnsat := fun _ => 0
    clausesCountSatisfied := fun _ => 0
    literalToClauseWithPositiveValue := occurrenceTable true clauses toCompute
    literalToClauseWithNegativeValue := occurrenceTable false clauses toCompute
    satisfiedSum := 0
    satisfiedCount := 0 }

/-- The list of clauses for a literal. -/
def clausesWith (s : HillClimbingSolver) (literal : Literal) : List Nat :=
  if literal.value then s.literalToClauseWithPositiveValue literal.number
  else s.literalToClauseWithNegativeValue literal.number

/-- The list of clauses for a literal is replaced. -/
def setClausesWith (s : HillClimbingSolver) (literal : Literal) (indices : List Nat) :
    HillClimbingSolver :=
  if literal.value then
    { s with literalToClauseWithPositiveValue :=
        Function.update s.literalToClauseWithPositiveValue literal.number indices }
  else
    { s with literalToClauseWithNegativeValue :=
        Function.update s.literalToClauseWithNegativeValue literal.number indices }

end HillClimbingSolver

/-- The variables of `reduce`. The map `toDelete` is given by what it has for every key. -/
structure Reduction where
  solver : HillClimbingSolver
  unitPropagationCache : List Nat := []
  toDelete : Nat → Option Nat := fun _ => none
  changed : Bool := true

namespace Reduction

/-- What happens to the literal of a unit clause that is not in the cache. -/
def fix (r : Reduction) (literal : Literal) : Reduction :=
  let s := r.solver
  let toSat := s.clausesWith literal
  let toSub := s.clausesWith literal.negate
  { solver := { s with
      propagated := Function.update s.propagated literal.number literal.value.toUInt8
      metaVariables := match s.literalToMetaVariable literal.number with
        | none => s.metaVariables
        | some metaVarIndex =>
            s.metaVariables.modify metaVarIndex (MetaVariable.narrow literal)
      clauses := toSub.foldl (fun clauses i =>
        clauses.modify i (Clause.eraseNumber literal.number)) s.clauses }
    unitPropagationCache := r.unitPropagationCache ++ [literal.number]
    toDelete := toSat.foldl (fun toDelete i =>
      Function.update toDelete i (some literal.number)) r.toDelete
    changed := r.changed || !toSub.isEmpty }

/-- The body of the loop over the clauses. -/
def visit (r : Reduction) (index : Nat) : Reduction :=
  match (r.solver.clause index).literals with
  | [literal] => if literal.number ∈ r.unitPropagationCache then r else r.fix literal
  | _ => r

/-- One round of the outer loop. -/
def pass (r : Reduction) : Reduction :=
  (List.range r.solver.clauses.length).foldl visit { r with changed := false }

/-- The outer loop, with a bound on the tests of its condition. -/
def propagate : Nat → Reduction → Option Reduction
  | 0, _ => none
  | fuel + 1, r => if r.changed then propagate fuel r.pass else some r

end Reduction

namespace HillClimbingSolver

/-- `lcpv.erase(std::find(..))`, which needs an entry to erase. -/
def eraseEntry (index : Nat) (s : HillClimbingSolver) (literal : Literal) :
    Option HillClimbingSolver :=
  if index ∈ s.clausesWith literal then
    some (s.setClausesWith literal ((s.clausesWith literal).erase index))
  else none

/-- The body of the loop over `toDelete`. The last literal with the given number is kept,
and `none` also stands for the case that there is no such literal. -/
def shrink (s : HillClimbingSolver) (index number : Nat) : Option HillClimbingSolver := do
  let literals := (s.clause index).literals
  let s ← literals.foldlM (eraseEntry index) s
  let kept ← literals.reverse.find? fun l => l.number == number
  return { s with clauses := s.clauses.set index ⟨[kept]⟩ }

/-- The loop over `toDelete`. The keys of the map are in ascending order. -/
def shrinkAll (s : HillClimbingSolver) (toDelete : Nat → Option Nat) :
    Option HillClimbingSolver :=
  (List.range s.clauses.length).foldlM (fun s index =>
    match toDelete index with
    | none => some s
    | some number => s.shrink index number) s

/-- The last loop: the lists of a fixed variable are emptied. -/
def clearLists (s : HillClimbingSolver) (number : Nat) : HillClimbingSolver :=
  { s with
    literalToClauseWithNegativeValue :=
      Function.update s.literalToClauseWithNegativeValue number []
    literalToClauseWithPositiveValue :=
      Function.update s.literalToClauseWithPositiveValue number [] }

/-- `reduce`. -/
def reduce (fuel : Nat) (s : HillClimbingSolver) : Option HillClimbingSolver := do
  let r ← Reduction.propagate fuel { solver := s }
  let s ← r.solver.shrinkAll r.toDelete
  return r.unitPropagationCache.foldl clearLists s

end HillClimbingSolver

namespace Literal

@[simp]
theorem number_negate (l : Literal) : l.negate.number = l.number := rfl

@[simp]
theorem negate_negate (l : Literal) : l.negate.negate = l := by
  simp [negate]

theorem negate_eq_iff {l l' : Literal} : l.negate = l' ↔ l = l'.negate := by
  constructor
  · intro h
    rw [← h, negate_negate]
  · intro h
    rw [h, negate_negate]

/-- A variable has two literals. -/
theorem eq_or_eq_negate {l l' : Literal} (h : l'.number = l.number) : l' = l ∨ l' = l.negate := by
  obtain ⟨number, value⟩ := l
  obtain ⟨number', value'⟩ := l'
  cases h
  cases value <;> cases value' <;> simp [negate]

/-- The literal is true. -/
def Holds (α : Nat → Bool) (l : Literal) : Prop := α l.number = l.value

theorem consistent_holds (α : Nat → Bool) :
    UnitPropagation.Consistent Literal.negate (Literal.Holds α) := by
  intro l
  unfold Holds negate
  cases α l.number <;> cases l.value <;> simp

end Literal

theorem Clause.eval_iff_holds {α : Nat → Bool} {clause : Clause} :
    clause.eval α = true ↔ UnitPropagation.Holds (Literal.Holds α) clause.literals := by
  simp [Clause.eval, UnitPropagation.Holds, Literal.Holds]

/-- No clause has both literals of a variable. -/
def Clause.TautologyFree (clause : Clause) : Prop :=
  ∀ l ∈ clause.literals, l.negate ∉ clause.literals

namespace HillClimbingSolver

section Tables

variable {value : Bool} {table : Nat → List Nat} {i k v : Nat} {clauses : List Clause}
variable {s : HillClimbingSolver} {l l' : Literal} {indices : List Nat}

theorem count_enterClause (clause : Clause) :
    (enterClause value table i clause v).count k =
      (table v).count k + if k = i then clause.literals.count ⟨v, value⟩ else 0 := by
  unfold enterClause
  induction clause.literals generalizing table with
  | nil => simp
  | cons literal literals ih =>
      obtain ⟨number, b⟩ := literal
      rw [List.foldl_cons, ih, List.count_cons]
      by_cases hentry : b = value ∧ number = v
      · obtain ⟨rfl, rfl⟩ := hentry
        rw [if_pos rfl, Function.update_self, List.count_append, List.count_singleton]
        by_cases hk : k = i
        · simp [hk]
          omega
        · simp [hk, Ne.symm hk]
      · have hne : ((⟨number, b⟩ : Literal) == ⟨v, value⟩) = false := by
          simpa [and_comm] using hentry
        rw [hne]
        by_cases hb : b = value
        · rw [if_pos hb, Function.update_of_ne fun h => hentry ⟨hb, h.symm⟩]
          simp
        · rw [if_neg hb]
          simp

/-- A table has an entry for every occurrence. -/
theorem count_occurrenceTable (clauses : List Clause) (toCompute : List Nat) :
    (occurrenceTable value clauses toCompute v).count k =
      if k ∈ toCompute then (clauses.getD k ⟨[]⟩).literals.count ⟨v, value⟩ else 0 := by
  induction clauses using List.reverseRecOn with
  | nil => simp [occurrenceTable]
  | append_singleton clauses clause ih =>
      have hstep : occurrenceTable value (clauses ++ [clause]) toCompute =
          if clauses.length ∈ toCompute then
            enterClause value (occurrenceTable value clauses toCompute) clauses.length clause
          else occurrenceTable value clauses toCompute := by
        simp [occurrenceTable, List.zipIdx_append]
      rw [hstep]
      by_cases hk : k = clauses.length
      · subst hk
        rw [List.getD_append_right _ _ _ _ le_rfl, Nat.sub_self, List.getD_cons_zero]
        rw [List.getD_eq_default _ _ le_rfl] at ih
        split
        · rw [count_enterClause, ih]
          simp
        · next hnot => rw [ih, if_neg hnot]
      · have hsame : (clauses ++ [clause]).getD k ⟨[]⟩ = clauses.getD k ⟨[]⟩ := by
          rcases Nat.lt_or_ge k clauses.length with hlt | hge
          · rw [List.getD_append _ _ _ _ hlt]
          · rw [List.getD_eq_default _ _ hge, List.getD_eq_default]
            simp
            omega
        rw [hsame, ← ih]
        split
        · rw [count_enterClause, if_neg hk, add_zero]
        · rfl

@[simp]
theorem clausesWith_setClausesWith :
    (s.setClausesWith l indices).clausesWith l' = if l' = l then indices else s.clausesWith l' := by
  obtain ⟨number, value⟩ := l
  obtain ⟨number', value'⟩ := l'
  unfold setClausesWith clausesWith
  by_cases h : number' = number
  · subst h
    cases value <;> cases value' <;> simp
  · cases value <;> cases value' <;> simp [h]

@[simp]
theorem clauses_setClausesWith : (s.setClausesWith l indices).clauses = s.clauses := by
  unfold setClausesWith
  split <;> rfl

end Tables

end HillClimbingSolver

end LatinSquares.LocalSearch
