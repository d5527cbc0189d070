/-
# The tables and counts of a new solver

Two loops of the constructor of `HillClimbingSolver`: the one that fills the tables of
occurrences, and the one that counts the true literals of every clause. The marks and sums
they leave are exact.
-/

import LatinSquares.LocalSearch.Check
import Mathlib.Algebra.Order.BigOperators.Group.Finset

namespace LatinSquares.LocalSearch

open LatinSquares.Math

/-- The other variables keep their values. -/
theorem setLiterals_of_not_mem {units : Units} {literals : List Literal} {number : Nat}
    (h : number ∉ literals.map Literal.number) :
    setLiterals units literals number = units number := by
  induction literals generalizing units with
  | nil => rfl
  | cons l literals ih =>
      obtain ⟨hne, hrest⟩ := not_or.mp (mt List.mem_cons.mpr h)
      show setLiterals (Function.update units l.number l.value.toUInt8) literals number = _
      rw [ih hrest, Function.update_of_ne hne]

/-- Literals that are true under an assignment set variables to its values. -/
theorem setLiterals_eq {α : Nat → Bool} {units : Units} {number : Nat} {literals : List Literal}
    (h : ∀ l ∈ literals, α l.number = l.value) :
    setLiterals units literals number =
      if number ∈ literals.map Literal.number then (α number).toUInt8 else units number := by
  induction literals generalizing units with
  | nil => simp [setLiterals]
  | cons l literals ih =>
      obtain ⟨hl, hrest⟩ := List.forall_mem_cons.mp h
      show setLiterals (Function.update units l.number l.value.toUInt8) literals number = _
      rw [ih hrest, List.map_cons]
      by_cases hmem : number ∈ literals.map Literal.number
      · rw [if_pos hmem, if_pos (List.mem_cons_of_mem _ hmem)]
      · rw [if_neg hmem]
        by_cases heq : number = l.number
        · rw [heq, Function.update_self, if_pos List.mem_cons_self, hl]
        · rw [Function.update_of_ne heq, if_neg (by simp [heq, hmem])]

/-- How often a variable occurs in a clause. -/
def Clause.mentions (clause : Clause) (v : Nat) : Nat :=
  clause.literals.countP fun literal => literal.number == v

namespace HillClimbingSolver

/-- `literal_to_clause_with_positive_value` (for `true`) or its counterpart (for `false`),
with the literals of clause `i` entered. -/
def enterClause (value : Bool) (table : Nat → List Nat) (i : Nat) (clause : Clause) :
    Nat → List Nat :=
  clause.literals.foldl (fun table literal =>
    if literal.value = value then
      Function.update table literal.number (table literal.number ++ [i])
    else table) table

/-- One of the tables, over all clauses of `toCompute`. -/
def occurrenceTable (value : Bool) (clauses : List Clause) (toCompute : List Nat) :
    Nat → List Nat :=
  clauses.zipIdx.foldl (fun table p =>
    if p.2 ∈ toCompute then enterClause value table p.2 p.1 else table) fun _ => []

/-- One round of the last loop of the constructor. -/
def countClause (toCompute : List Nat) (s : HillClimbingSolver) (i : Nat) : HillClimbingSolver :=
  let count := (s.clause i).propagate s.propagated
  let s := { s with clausesCountSatisfied :=
              Function.update s.clausesCountSatisfied i (UInt32.ofNat count) }
  if 0 < count ∨ i ∉ toCompute then
    { s with
      satisfied := Function.update s.satisfied i true
      satisfiedSum := s.satisfiedSum + s.weights i
      satisfiedCount := s.satisfiedCount + 1 }
  else { s with literalToUnsat := addUnsat (s.clause i) 1 s.literalToUnsat }

/-- The last loop of the constructor. -/
def countClauses (toCompute : List Nat) (s : HillClimbingSolver) : HillClimbingSolver :=
  (List.range s.clauses.length).foldl (countClause toCompute) s

/-- A solver for the given clauses with `propagated` as its assignment. -/
def ofAssignment (clauses : List Clause) (toCompute : List Nat) (weights : Nat → UInt32)
    (net : Net) (propagated : Units) : HillClimbingSolver :=
  countClauses toCompute
    { clauses, propagated, weights, net
      satisfied := fun _ => false
      literalToUnsat := fun _ => 0
      clausesCountSatisfied := fun _ => 0
      literalToClauseWithPositiveValue := occurrenceTable true clauses toCompute
      literalToClauseWithNegativeValue := occurrenceTable false clauses toCompute
      satisfiedSum := 0
      satisfiedCount := 0 }

variable {value : Bool} {table : Nat → List Nat} {i k v : Nat} {clause : Clause}
variable {clauses : List Clause} {toCompute : List Nat}

theorem mem_enterClause :
    k ∈ enterClause value table i clause v ↔
      k ∈ table v ∨ k = i ∧ ⟨v, value⟩ ∈ clause.literals := by
  unfold enterClause
  induction clause.literals generalizing table with
  | nil => simp
  | cons literal literals ih =>
      obtain ⟨number, b⟩ := literal
      rw [List.foldl_cons, ih, List.mem_cons]
      by_cases hb : b = value
      · by_cases hv : v = number
        · subst hb hv
          simp only [if_true, Function.update_self, List.mem_append, List.mem_singleton,
            true_or, and_true, or_assoc]
          exact or_congr_right (or_iff_left_of_imp And.left)
        · simp [hb, hv]
      · have hne : (⟨v, value⟩ : Literal) ≠ ⟨number, b⟩ := fun heq => hb (by cases heq; rfl)
        simp [hb, hne]

theorem mem_occurrenceTable :
    k ∈ occurrenceTable value clauses toCompute v ↔
      k ∈ toCompute ∧ ∃ clause, clauses[k]? = some clause ∧ ⟨v, value⟩ ∈ clause.literals := by
  have hfold : ∀ (pairs : List (Clause × Nat)) (table : Nat → List Nat),
      k ∈ pairs.foldl (fun table p =>
          if p.2 ∈ toCompute then enterClause value table p.2 p.1 else table) table v ↔
        k ∈ table v ∨
          ∃ clause, (clause, k) ∈ pairs ∧ k ∈ toCompute ∧ ⟨v, value⟩ ∈ clause.literals := by
    intro pairs
    induction pairs with
    | nil => simp
    | cons p pairs ih =>
        intro table
        obtain ⟨clause, i⟩ := p
        rw [List.foldl_cons, ih]
        by_cases hi : i ∈ toCompute
        · simp only [hi, if_true, mem_enterClause, List.mem_cons, Prod.mk.injEq]
          constructor
          · rintro ((htable | ⟨rfl, hmem⟩) | ⟨clause', hpair, hk, hmem⟩)
            · exact Or.inl htable
            · exact Or.inr ⟨clause, Or.inl ⟨rfl, rfl⟩, hi, hmem⟩
            · exact Or.inr ⟨clause', Or.inr hpair, hk, hmem⟩
          · rintro (htable | ⟨clause', ⟨rfl, rfl⟩ | hpair, hk, hmem⟩)
            · exact Or.inl (Or.inl htable)
            · exact Or.inl (Or.inr ⟨rfl, hmem⟩)
            · exact Or.inr ⟨clause', hpair, hk, hmem⟩
        · simp only [hi, if_false, List.mem_cons, Prod.mk.injEq]
          constructor
          · rintro (htable | ⟨clause', hpair, hk, hmem⟩)
            · exact Or.inl htable
            · exact Or.inr ⟨clause', Or.inr hpair, hk, hmem⟩
          · rintro (htable | ⟨clause', ⟨rfl, rfl⟩ | hpair, hk, hmem⟩)
            · exact Or.inl htable
            · exact absurd hk hi
            · exact Or.inr ⟨clause', hpair, hk, hmem⟩
  rw [occurrenceTable, hfold]
  simp only [List.not_mem_nil, false_or, List.mem_zipIdx_iff_getElem?]
  constructor
  · rintro ⟨clause, hclause, hk, hmem⟩
    exact ⟨hk, clause, hclause, hmem⟩
  · rintro ⟨hk, clause, hclause, hmem⟩
    exact ⟨clause, hclause, hk, hmem⟩

theorem propagate_pos_iff {α : Nat → Bool} :
    0 < clause.propagate (unitsOf α) ↔ clause.eval α = true := by
  rw [Clause.propagate, List.countP_pos_iff, Clause.eval, List.any_eq_true]
  apply exists_congr
  intro literal
  apply and_congr_right
  intro _
  unfold unitsOf
  cases α literal.number <;> cases literal.value <;> decide

theorem addUnsat_apply (clause : Clause) (delta : UInt32) (unsat : Nat → UInt32) (v : Nat) :
    addUnsat clause delta unsat v = unsat v + UInt32.ofNat (clause.mentions v) * delta := by
  unfold addUnsat Clause.mentions
  induction clause.literals generalizing unsat with
  | nil => simp
  | cons literal literals ih =>
      rw [List.foldl_cons, ih]
      by_cases hv : literal.number = v
      · subst hv
        rw [Function.update_self, List.countP_cons_of_pos (by simp), UInt32.ofNat_add]
        rw [add_mul, add_assoc, add_comm delta]
        simp
      · rw [Function.update_of_ne (Ne.symm hv), List.countP_cons_of_neg (by simpa using hv)]

/-- The sum over the marks of one more clause. -/
theorem sum_range_update (marks : Nat → Bool) (b : Bool) (f g : Nat → UInt32) (n : Nat) :
    (∑ i ∈ Finset.range (n + 1), if Function.update marks n b i then f i else g i) =
      (∑ i ∈ Finset.range n, if marks i then f i else g i) + if b then f n else g n := by
  rw [Finset.sum_range_succ, Function.update_self]
  congr 1
  apply Finset.sum_congr rfl
  intro i hi
  rw [Function.update_of_ne (Finset.mem_range.mp hi).ne]

/-- After `n` rounds the counts and marks of the first `n` clauses are exact, and the sums are those
of these clauses. -/
structure Counted (toCompute : List Nat) (s₀ s : HillClimbingSolver) (n : Nat) : Prop where
  clauses : s.clauses = s₀.clauses
  propagated : s.propagated = s₀.propagated
  weights : s.weights = s₀.weights
  net : s.net = s₀.net
  positive : s.literalToClauseWithPositiveValue = s₀.literalToClauseWithPositiveValue
  negative : s.literalToClauseWithNegativeValue = s₀.literalToClauseWithNegativeValue
  count : ∀ i < n, s.clausesCountSatisfied i =
    UInt32.ofNat ((s₀.clause i).propagate s₀.propagated)
  satisfied : ∀ i < n, s.satisfied i =
    decide (0 < (s₀.clause i).propagate s₀.propagated ∨ i ∉ toCompute)
  unsatisfied : ∀ i, n ≤ i → s.satisfied i = s₀.satisfied i
  satisfiedSum : s.satisfiedSum =
    s₀.satisfiedSum + ∑ i ∈ Finset.range n, if s.satisfied i then s₀.weights i else 0
  satisfiedCount : s.satisfiedCount =
    s₀.satisfiedCount + ∑ i ∈ Finset.range n, if s.satisfied i then 1 else 0
  literalToUnsat : ∀ v, s.literalToUnsat v = s₀.literalToUnsat v +
    ∑ i ∈ Finset.range n, if s.satisfied i then 0 else UInt32.ofNat ((s₀.clause i).mentions v)

theorem counted_zero (toCompute : List Nat) (s : HillClimbingSolver) :
    Counted toCompute s s 0 where
  clauses := rfl
  propagated := rfl
  weights := rfl
  net := rfl
  positive := rfl
  negative := rfl
  count i hi := absurd hi (Nat.not_lt_zero i)
  satisfied i hi := absurd hi (Nat.not_lt_zero i)
  unsatisfied _ _ := rfl
  satisfiedSum := by simp
  satisfiedCount := by simp
  literalToUnsat v := by simp

variable {s s₀ : HillClimbingSolver} {n : Nat}

/-- What one round marks and adds. -/
theorem countClause_eq (toCompute : List Nat) (hunmarked : s.satisfied i = false) :
    let found := decide (0 < (s.clause i).propagate s.propagated ∨ i ∉ toCompute)
    countClause toCompute s i = { s with
      satisfied := Function.update s.satisfied i found
      satisfiedSum := s.satisfiedSum + if found then s.weights i else 0
      clausesCountSatisfied := Function.update s.clausesCountSatisfied i
        (UInt32.ofNat ((s.clause i).propagate s.propagated))
      satisfiedCount := s.satisfiedCount + if found then 1 else 0
      literalToUnsat := if found then s.literalToUnsat
        else addUnsat (s.clause i) 1 s.literalToUnsat } := by
  intro found
  unfold countClause
  by_cases hfound : 0 < (s.clause i).propagate s.propagated ∨ i ∉ toCompute
  · have htrue : found = true := decide_eq_true hfound
    rw [htrue]
    exact if_pos hfound
  · have hfalse : found = false := decide_eq_false hfound
    have hkeep : Function.update s.satisfied i false = s.satisfied := by
      rw [← hunmarked, Function.update_eq_self]
    rw [hfalse, hkeep]
    exact (if_neg hfound).trans (by simp [clause])

theorem Counted.step (hunmarked : ∀ i, s₀.satisfied i = false)
    (h : Counted toCompute s₀ s n) : Counted toCompute s₀ (countClause toCompute s n) (n + 1) := by
  have hn : s.satisfied n = false := (h.unsatisfied n le_rfl).trans (hunmarked n)
  have hclause : s.clause n = s₀.clause n := by rw [clause, h.clauses, clause]
  rw [countClause_eq toCompute hn]
  refine ⟨h.clauses, h.propagated, h.weights, h.net, h.positive, h.negative, ?_, ?_, ?_, ?_, ?_, ?_⟩
  · intro i hi
    dsimp only
    rw [Function.update_apply, hclause, h.propagated]
    split
    · next heq => rw [heq]
    · next hne => exact h.count i (by omega)
  · intro i hi
    dsimp only
    rw [Function.update_apply, hclause, h.propagated]
    split
    · next heq => rw [heq]
    · next hne => exact h.satisfied i (by omega)
  · intro i hi
    dsimp only
    rw [Function.update_of_ne (by omega), h.unsatisfied i (by omega)]
  · rw [h.satisfiedSum, sum_range_update, h.weights, add_assoc]
  · rw [h.satisfiedCount, sum_range_update, add_assoc]
  · intro v
    dsimp only
    rw [sum_range_update, ← add_assoc, ← h.literalToUnsat]
    split
    · rw [add_zero]
    · rw [addUnsat_apply, mul_one, hclause]

theorem counted_range (hunmarked : ∀ i, s.satisfied i = false) (n : Nat) :
    Counted toCompute s ((List.range n).foldl (countClause toCompute) s) n := by
  induction n with
  | zero => exact counted_zero toCompute s
  | succ n ih =>
      rw [List.range_succ, List.foldl_append, List.foldl_cons, List.foldl_nil]
      exact ih.step hunmarked

theorem counted_countClauses (toCompute : List Nat) (hunmarked : ∀ i, s.satisfied i = false) :
    Counted toCompute s (countClauses toCompute s) s.clauses.length :=
  counted_range hunmarked s.clauses.length

/-- What the constructor keeps and what it marks. -/
theorem counted_ofAssignment (clauses : List Clause) (toCompute : List Nat)
    (weights : Nat → UInt32) (net : Net) (propagated : Units) :
    Counted toCompute
      { clauses, propagated, weights, net
        satisfied := fun _ => false
        literalToUnsat := fun _ => 0
        clausesCountSatisfied := fun _ => 0
        literalToClauseWithPositiveValue := occurrenceTable true clauses toCompute
        literalToClauseWithNegativeValue := occurrenceTable false clauses toCompute
        satisfiedSum := 0
        satisfiedCount := 0 }
      (ofAssignment clauses toCompute weights net propagated) clauses.length :=
  counted_countClauses toCompute fun _ => rfl

/-- The marks, tables and sum of a new solver are exact, unless the sum overflows. -/
theorem bookkeeping_ofAssignment {weights : Nat → UInt32} {net : Net} {α : Nat → Bool}
    (hindices : ∀ i ∈ toCompute, i < clauses.length)
    (hfits : ∑ i ∈ Finset.range clauses.length, (weights i).toNat < 2 ^ 32) :
    Bookkeeping (ofAssignment clauses toCompute weights net (unitsOf α)) α toCompute.toFinset := by
  have hcounted := counted_ofAssignment clauses toCompute weights net (unitsOf α)
  generalize ofAssignment clauses toCompute weights net (unitsOf α) = s at hcounted
  obtain ⟨hclauses, hpropagated, hweights, -, hpositive, hnegative, -, hsatisfied, -, hsum, -⟩ :=
    hcounted
  have hclause : ∀ i, s.clause i = clauses.getD i ⟨[]⟩ := fun i => by rw [clause, hclauses]
  have htable : ∀ v i value, i ∈ occurrenceTable value clauses toCompute v ↔
      i ∈ toCompute.toFinset ∧ ⟨v, value⟩ ∈ (s.clause i).literals := by
    intro v i value
    rw [mem_occurrenceTable, List.mem_toFinset, hclause]
    apply and_congr_right
    intro hi
    rw [List.getD_eq_getElem?_getD, List.getElem?_eq_getElem (hindices i hi)]
    simp
  refine ⟨hpropagated, ?_, fun v i => by rw [hpositive, htable],
    fun v i => by rw [hnegative, htable], ?_, ?_⟩
  · intro i hi
    rw [hclauses]
    exact hindices i (List.mem_toFinset.mp hi)
  · intro i hi
    rw [hclauses] at hi
    rw [hsatisfied i hi, decide_eq_true_iff, List.mem_toFinset, clause, propagate_pos_iff, hclause,
      or_comm, ← imp_iff_not_or]
  · have hnat : s.satisfiedSum = UInt32.ofNat
        (∑ i ∈ Finset.range clauses.length, if s.satisfied i then (weights i).toNat else 0) := by
      rw [hsum, zero_add, ofNat_sum]
      apply Finset.sum_congr rfl
      intro i _
      split <;> simp
    have hle : ∑ i ∈ Finset.range clauses.length, (if s.satisfied i then (weights i).toNat else 0) ≤
        ∑ i ∈ Finset.range clauses.length, (weights i).toNat := by
      apply Finset.sum_le_sum
      intro i _
      split
      · exact le_rfl
      · exact Nat.zero_le _
    rw [hclauses, hweights, hnat, UInt32.toNat_ofNat', Nat.mod_eq_of_lt (hle.trans_lt hfits)]

end HillClimbingSolver

end LatinSquares.LocalSearch
