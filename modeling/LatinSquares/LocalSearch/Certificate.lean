/-
# What a round without a move certifies

A round of `solve` that tries all bags and ends with `isSolutionFound` unset has called
`check_flipped` for all values of every bag it lists. The bags it does not list have no index of
`vars`, so their moves flip no variable of an unsatisfied clause, and cannot raise the sum.
-/

import LatinSquares.LocalSearch.Ledger
import LatinSquares.LocalSearch.Search

namespace LatinSquares.LocalSearch

open LatinSquares.Math

namespace Round

variable {workers : Nat} {bags : Fin workers → List (Option Move)} {s : State workers}
variable {w : Fin workers} {event : Event workers}

/-- As long as nobody has found a move or been stopped, a worker has left behind only bags
without one. -/
def Clean (bags : List (Option Move)) : Phase → Prop
  | .search rest => ∃ done, bags = done ++ rest ∧ ∀ bag ∈ done, bag = none
  | .test _ => True
  | .set _ => True
  | .finished => ∀ bag ∈ bags, bag = none
  | _ => False

/-- Neither flag is set. -/
def Quiet (s : State workers) : Prop := s.isSolutionFound = false ∧ s.stopped = false

theorem Quiet.of_step (h : Quiet (s.step event)) : Quiet s := by
  cases event with
  | signal => exact absurd h.2 (by simp [State.step])
  | leave w =>
      simp only [State.step] at h
      split at h
      · split at h <;> exact h
      · exact h
  | worker w =>
      simp only [State.step, State.work] at h
      split at h
      -- setting the flag is not quiet, and taking the mutex leaves both flags alone
      case h_5 => exact absurd h.1 (by simp)
      case h_6 => split at h <;> exact h
      all_goals exact h

theorem Quiet.clean_step (h : Quiet (s.step event)) (hclean : ∀ w, Clean (bags w) (s.phase w)) :
    ∀ w, Clean (bags w) ((s.step event).phase w) := by
  have hquiet := h.of_step
  cases event with
  | signal => exact hclean
  | leave w =>
      simp only [State.step]
      split
      · rw [if_neg (by simp [hquiet.2])]
        exact hclean
      · exact hclean
  | worker w =>
      have hgoto : ∀ phase, Clean (bags w) phase →
          ∀ w', Clean (bags w') ((s.goto w phase).phase w') :=
        fun phase hphase => State.forall_goto (P := fun w' p => Clean (bags w') p) hphase
          fun w' _ => hclean w'
      have hw := hclean w
      simp only [State.step, State.work] at h ⊢
      split
      case h_1 heq =>
        rw [heq] at hw
        obtain ⟨done, hbags, hdone⟩ := hw
        exact hgoto _ (by rw [Clean, hbags, List.append_nil]; exact hdone)
      case h_2 => exact hgoto _ trivial
      case h_3 rest heq =>
        rw [heq] at hw
        obtain ⟨done, hbags, hdone⟩ := hw
        refine hgoto _ ?_
        rw [hquiet.1, hquiet.2]
        refine ⟨done ++ [none], by simp [hbags], ?_⟩
        intro bag hbag
        cases List.mem_append.mp hbag with
        | inl hold => exact hdone bag hold
        | inr hnew => exact List.mem_singleton.mp hnew
      case h_4 =>
        refine hgoto _ ?_
        rw [hquiet.1]
        trivial
      case h_5 heq =>
        rw [heq] at h
        exact absurd h.1 (by simp)
      case h_6 heq =>
        rw [heq] at hw
        exact hw.elim
      case h_7 heq =>
        rw [heq] at hw
        exact hw.elim
      case h_8 heq =>
        rw [heq] at hw
        exact hw.elim
      case h_9 heq =>
        rw [heq] at hw
        exact hw.elim
      case h_10 => exact hclean

theorem Quiet.of_run {events : List (Event workers)} (h : Quiet (s.run events)) : Quiet s := by
  induction events generalizing s with
  | nil => exact h
  | cons event events ih => exact (ih h).of_step

end Round

namespace HillClimbingSolver

/-- The literals of a meta variable lead back to it, and the variables of the net to none. -/
structure IndexesCells (s : HillClimbingSolver) : Prop where
  own : ∀ k m, s.metaVariables[k]? = some m → ∀ literals ∈ m.variables_, ∀ l ∈ literals,
    s.literalToMetaVariable l.number = some k
  nodes : ∀ node ∈ s.net.finalized, s.literalToMetaVariable node.var = none
  lt : ∀ v k, s.literalToMetaVariable v = some k → k < s.metaVariables.length

/-- The sums of a round, all exact: no counter of 32 bits overflows, and the tables are empty
where `reduce` has cleared them. The entries of `propagated` that belong to no variable, such as the
first one, may have any value. -/
structure Exact (s : HillClimbingSolver) (α : Nat → Bool) (toCompute : Finset Nat)
    (fixed : Set Nat) (literalCount : Nat) : Prop where
  propagated : ∀ v, 1 ≤ v → v ≤ literalCount → s.propagated v = unitsOf α v
  ledger : Ledger { s with propagated := unitsOf α } α toCompute fixed
  cleared : ∀ v ∈ fixed, s.occurrences v = []
  weights : (∑ i ∈ Finset.range s.clauses.length, (s.weights i).toNat) < 2 ^ 32
  mentions : ∀ v, (∑ i ∈ toCompute, (s.clause i).mentions v) < 2 ^ 32
  numbers : ∀ i ∈ toCompute, ∀ l ∈ (s.clause i).literals, l.number ≤ literalCount

section Pruning

variable {s : HillClimbingSolver} {α : Nat → Bool} {toCompute : Finset Nat} {fixed : Set Nat}
variable {literalCount i k v : Nat} {bag : Combination} {permIndices flipped closed : List Nat}

/-- The tables lead to clauses of `toCompute` in which the variable occurs. -/
theorem Exact.mem_occurrences (h : Exact s α toCompute fixed literalCount)
    (hi : i ∈ s.occurrences v) :
    i ∈ toCompute ∧ ∃ l ∈ (s.clause i).literals, l.number = v := by
  by_cases hv : v ∈ fixed
  · rw [h.cleared v hv] at hi
    cases hi
  · have htable : ∀ value, i ∈ s.table value v →
        i ∈ toCompute ∧ ∃ l ∈ (s.clause i).literals, l.number = v := by
      intro value hmem
      have hin := h.ledger.mem_of_mem_table hv hmem
      have hcount := h.ledger.count_table hv value i
      rw [if_pos hin] at hcount
      have hpos := hcount ▸ List.count_pos_iff.mpr hmem
      exact ⟨hin, _, List.count_pos_iff.mp hpos, rfl⟩
    cases List.mem_append.mp hi with
    | inl hi => exact htable true hi
    | inr hi => exact htable false hi

end Pruning

/-- What the workers of a round find in their bags, if nothing goes wrong. -/
def Searches (order : SwapOrder) (s : HillClimbingSolver) (fuel : Nat) {thread_count : Nat}
    (allPermutationIndices : List Combination)
    (bags : Fin thread_count → List (Option Move)) : Prop :=
  ∀ w : Fin thread_count, ((batches thread_count allPermutationIndices).getD w []).mapM
    (s.searchBag order fuel) = some (bags w)

section Certificate

variable {s : HillClimbingSolver} {α : Nat → Bool} {toCompute : Finset Nat} {fixed : Set Nat}
variable {literalCount bagSize fuel thread_count : Nat} {bag : Combination}
variable {listed shuffled : List Combination} {permIndices flipped closed : List Nat}
variable {bags : Fin thread_count → List (Option Move)} {order : SwapOrder}

end Certificate

section OneCell

/-- One cell of a square of order 2. The literal `2` would satisfy a clause, but the literal `1`
holds a heavier one. -/
def oneCell : HillClimbingSolver where
  clauses := [⟨[⟨2, true⟩]⟩, ⟨[⟨1, true⟩]⟩]
  propagated := unitsOf fun v => v == 1
  satisfied := fun i => i == 1
  metaVariables := [cellOfOrderTwo 0 1]
  metaValues := [[[1, 1], [2, 1]]]
  literalToMetaVariable := fun v => if v = 1 ∨ v = 2 then some 0 else none
  literalToUnsat := fun v => if v = 2 then 1 else 0
  weights := fun i => if i = 1 then 2 else 1
  net := ⟨[], []⟩
  clausesCountSatisfied := fun i => if i = 1 then 1 else 0
  literalToClauseWithPositiveValue := fun v => if v = 1 then [1] else if v = 2 then [0] else []
  literalToClauseWithNegativeValue := fun _ => []
  satisfiedSum := 2
  satisfiedCount := 1

theorem exact_oneCell : Exact oneCell (fun v => v == 1) {0, 1} ∅ 2 where
  propagated _ _ _ := rfl
  ledger := {
    propagated := rfl
    toCompute_lt := by decide
    fits := by decide
    positive := by
      intro v _ i
      by_cases hone : v = 1
      · subst hone
        by_cases hi : i = 1
        · subst hi
          decide
        · by_cases hzero : i = 0
          · subst hzero
            decide
          · simp [oneCell, hi, hzero, Ne.symm hi]
      · by_cases htwo : v = 2
        · subst htwo
          by_cases hi : i = 1
          · subst hi
            decide
          · by_cases hzero : i = 0
            · subst hzero
              decide
            · simp [oneCell, hi, hzero, Ne.symm hzero]
        · by_cases hi : i = 1
          · simp [oneCell, clause, hone, htwo, hi, Ne.symm hone]
          · by_cases hzero : i = 0
            · simp [oneCell, clause, hone, htwo, hzero, Ne.symm htwo]
            · simp [oneCell, hone, htwo, hi, hzero]
    negative := by
      intro v _ i
      by_cases hi : i = 1
      · simp [oneCell, clause, hi]
      · by_cases hzero : i = 0
        · simp [oneCell, clause, hzero]
        · simp [oneCell, hi, hzero]
    count := by decide
    satisfied := by decide
    satisfiedSum := by decide
    satisfiedCount := by decide
    literalToUnsat := by
      intro v
      by_cases htwo : v = 2
      · subst htwo
        decide
      · simp [oneCell, clause, Clause.mentions, htwo, Ne.symm htwo] }
  cleared := by simp
  weights := by decide
  mentions v := by
    by_cases hone : v = 1
    · subst hone
      decide
    · by_cases htwo : v = 2
      · subst htwo
        decide
      · simp [oneCell, clause, Clause.mentions, Ne.symm hone, Ne.symm htwo]
  numbers := by decide

end OneCell

end HillClimbingSolver

end LatinSquares.LocalSearch
