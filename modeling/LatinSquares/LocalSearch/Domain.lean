/-
# Which values of a bag are tried

`satisfyPredicateForDomain` of `solver/HillClimbingSolver.cpp`: the chosen values of a bag are
tried if they do not increase the conflicts of the squares.
-/

import LatinSquares.LocalSearch.Deltas
import LatinSquares.LocalSearch.Mirror
import LatinSquares.LocalSearch.Moves
import Mathlib.Tactic.IntervalCases

namespace LatinSquares.LocalSearch

open LatinSquares.Math

namespace HillClimbingSolver

/-- The cell of a meta variable and the index of the symbol chosen for it. -/
def choice (s : HillClimbingSolver) (p : Nat × Nat) : Option ((Nat × Nat × Nat) × Nat) := do
  let m ← s.metaVariables[p.1]?
  let value ← m.values[p.2]?
  return (m.place, value.toNat - 1)

/-- `satisfyPredicateForDomain` for indices of meta variables and of their values. -/
def satisfyPredicateForDomain (s : HillClimbingSolver) (bag : List (Nat × Nat))
    (rowsDistinct columnsDistinct : Nat × Nat × Nat → Nat) (pairsIndex : Nat × Nat → Nat) :
    Option Bool := do
  let choices ← bag.mapM s.choice
  let d := choices.foldl (Deltas.write s.metaValues pairsIndex) {}
  return d.total s.metaValues rowsDistinct columnsDistinct ≤ 0

/-- The test in a round of `solve`, with the tables of that round. -/
def acceptsValues (s : HillClimbingSolver) (bag : List (Nat × Nat)) : Option Bool :=
  s.satisfyPredicateForDomain bag (rowsDistinct s.metaValues) (columnsDistinct s.metaValues)
    (pairsIndex s.metaValues)

end HillClimbingSolver

section Filter

variable {s : HillClimbingSolver} {bag : List (Nat × Nat)} {choices : List (Cell × Nat)}
variable {candidates : List (MetaVariable × List Literal × UInt8)} {squares n : Nat}
variable {metaValues after : List (List (List UInt32))} {m : MetaVariable} {value : UInt8}

theorem symbolAt_setValue (h : m.setValue metaValues value = some after) :
    symbolAt after = Function.update (symbolAt metaValues) m.place (value.toNat - 1) := by
  funext place
  rw [symbolAt, metaValueAt_setValue h, Function.update_apply]
  split
  · rfl
  · rfl

theorem symbolAt_writes
    (h : candidates.foldlM (fun metaValues c => c.1.setValue metaValues c.2.2) metaValues =
      some after) :
    symbolAt after = written (symbolAt metaValues)
      (candidates.map fun c => (c.1.place, c.2.2.toNat - 1)) := by
  induction candidates generalizing metaValues with
  | nil =>
      cases h
      rfl
  | cons c candidates ih =>
      rw [List.foldlM_cons] at h
      obtain ⟨middle, hset, hrest⟩ := Option.bind_eq_some_iff.mp h
      rw [ih hrest, symbolAt_setValue hset]
      rfl

theorem choice_eq_some {p : Nat × Nat} {choice : Cell × Nat} (h : s.choice p = some choice) :
    ∃ m value, s.metaVariables[p.1]? = some m ∧ m.values[p.2]? = some value ∧
      choice = (m.place, value.toNat - 1) := by
  obtain ⟨m, hm, h⟩ := Option.bind_eq_some_iff.mp h
  obtain ⟨value, hvalue, h⟩ := Option.bind_eq_some_iff.mp h
  cases h
  exact ⟨m, value, hm, hvalue, rfl⟩

/-- The chosen values are those that are written. -/
theorem symbolAt_writeValues (hchoices : bag.mapM s.choice = some choices)
    (hwrite : s.writeValues bag = some after) :
    symbolAt after = written (symbolAt s.metaValues) choices := by
  obtain ⟨candidates, hcandidates, hfold⟩ := Option.bind_eq_some_iff.mp hwrite
  rw [symbolAt_writes hfold]
  congr 1
  replace hcandidates := forall₂_of_mapM hcandidates
  replace hchoices := forall₂_of_mapM hchoices
  clear hwrite hfold
  induction hcandidates generalizing choices with
  | nil =>
      cases hchoices
      rfl
  | cons hcandidate _ ih =>
      obtain ⟨choice, rest, hchoice, hrest, rfl⟩ := List.forall₂_cons_left_iff.mp hchoices
      obtain ⟨m, value, hm, hvalue, rfl⟩ := choice_eq_some hchoice
      obtain ⟨m', hm', hcandidate⟩ := Option.bind_eq_some_iff.mp hcandidate
      obtain ⟨literals, -, hcandidate⟩ := Option.bind_eq_some_iff.mp hcandidate
      obtain ⟨value', hvalue', hcandidate⟩ := Option.bind_eq_some_iff.mp hcandidate
      cases hcandidate
      cases hm.symm.trans hm'
      cases hvalue.symm.trans hvalue'
      rw [List.map_cons, ih hrest]

/-- The meta variables stand for different cells of filled squares, and their values are symbols
of these. -/
structure Fits (s : HillClimbingSolver) (squares n : Nat) : Prop where
  filled : Filled s.metaValues squares n
  places : (s.metaVariables.map MetaVariable.place).Nodup
  within : ∀ m ∈ s.metaVariables, m.place ∈ cube squares n
  values : ∀ m ∈ s.metaVariables, ∀ value ∈ m.values, 1 ≤ value.toNat ∧ value.toNat ≤ n

/-- A bag of different meta variables chooses symbols for different cells. -/
theorem Fits.choose (h : Fits s squares n) (hbag : (bag.map Prod.fst).Nodup)
    (hchoices : bag.mapM s.choice = some choices) : Choices squares n choices := by
  have hchoices := forall₂_of_mapM hchoices
  have hplaces : bag.map (fun p => (s.metaVariables.map MetaVariable.place)[p.1]?) =
      choices.map fun choice => some choice.1 := by
    refine map_eq_of_forall₂ hchoices fun p choice hchoice => ?_
    obtain ⟨m, value, hm, -, rfl⟩ := choice_eq_some hchoice
    rw [List.getElem?_map, hm]
    rfl
  constructor
  · have hindices : ((bag.map Prod.fst).map fun i =>
        (s.metaVariables.map MetaVariable.place)[i]?).Nodup := by
      refine hbag.map_on fun i hi j _ heq => ?_
      obtain ⟨p, hp, rfl⟩ := List.mem_map.mp hi
      obtain ⟨choice, -, hchoice⟩ := exists_of_forall₂ hchoices.flip hp
      obtain ⟨m, -, hm, -⟩ := choice_eq_some hchoice
      have hlt := (List.getElem?_eq_some_iff.mp hm).1
      exact (List.getElem?_inj (by rwa [List.length_map]) h.places).mp heq
    rw [List.map_map] at hindices
    have hsome : ((choices.map Prod.fst).map some).Nodup := by
      rw [List.map_map]
      exact hplaces ▸ hindices
    exact hsome.of_map some
  · intro choice hmem
    obtain ⟨p, -, hchoice⟩ := exists_of_forall₂ hchoices hmem
    obtain ⟨m, value, hm, hvalue, rfl⟩ := choice_eq_some hchoice
    have hm := List.mem_of_getElem? hm
    obtain ⟨hpos, hle⟩ := h.values m hm value (List.mem_of_getElem? hvalue)
    exact ⟨h.within m hm, Nat.lt_of_lt_of_le (Nat.sub_lt hpos Nat.one_pos) hle⟩

/-- The values are tried exactly if they do not increase the conflicts, provided that their
changes stay apart. -/
theorem acceptsValues_eq (h : Fits s squares n) (hbag : (bag.map Prod.fst).Nodup)
    (hchoices : bag.mapM s.choice = some choices)
    (happart : ChangesApart s.metaValues squares choices)
    (hwrite : s.writeValues bag = some after) :
    s.acceptsValues bag =
      some (decide (conflicts squares n (symbolAt after) ≤
        conflicts squares n (symbolAt s.metaValues))) := by
  have hexact := Deltas.exact_foldl h.filled (h.choose hbag hchoices) happart
  have htotal := hexact.total_eq h.filled
  rw [← symbolAt_writeValues hchoices hwrite] at htotal
  rw [HillClimbingSolver.acceptsValues, HillClimbingSolver.satisfyPredicateForDomain, hchoices]
  refine congrArg some (decide_eq_decide.mpr ?_)
  rw [htotal]
  omega

end Filter

section TwoSquares

/-- A meta variable of order 2 over two variables. -/
def cellOfOrderTwo (matrixIndex : UInt8) (v : Nat) : MetaVariable where
  matrixIndex := matrixIndex
  rowIndex := 0
  columnIndex := 0
  variables_ := [[⟨v, true⟩, ⟨v + 1, false⟩], [⟨v, false⟩, ⟨v + 1, true⟩]]
  values := [1, 2]

/-- Two squares of order 2. The meta variables stand for their first cells. -/
def twoSquares : HillClimbingSolver where
  clauses := []
  propagated := fun v => if v = 1 ∨ v = 3 then 1 else 0
  satisfied := fun _ => false
  metaVariables := [cellOfOrderTwo 0 1, cellOfOrderTwo 1 3]
  metaValues := [[[1, 1], [2, 1]], [[1, 2], [1, 1]]]
  literalToUnsat := fun _ => 0
  weights := fun _ => 1
  net := ⟨[], []⟩
  clausesCountSatisfied := fun _ => 0
  literalToClauseWithPositiveValue := fun _ => []
  literalToClauseWithNegativeValue := fun _ => []
  satisfiedSum := 0
  satisfiedCount := 0

theorem fits_twoSquares : Fits twoSquares 2 2 where
  filled := {
    length := rfl
    order := by simp [twoSquares]
    symbols := by
      intro k hk i hi j hj
      interval_cases k <;> interval_cases i <;> interval_cases j <;>
        exact ⟨_, rfl, by decide, by decide⟩ }
  places := by decide
  within := by decide
  values := by decide +kernel

/-- Writing `2` to both cells resolves a conflict, but each change is compared with the old symbol
of the other square, and the values are not tried. -/
theorem not_acceptsValues_eq :
    ¬ ∀ (s : HillClimbingSolver) (squares n : Nat), Fits s squares n → ∀ bag : List (Nat × Nat),
      (bag.map Prod.fst).Nodup → ∀ after, s.writeValues bag = some after →
        s.acceptsValues bag = some (decide (conflicts squares n (symbolAt after) ≤
          conflicts squares n (symbolAt s.metaValues))) := by
  intro h
  have hdecided := h twoSquares 2 2 fits_twoSquares [(0, 1), (1, 1)] (by decide)
    [[[2, 1], [2, 1]], [[2, 2], [1, 1]]] (by decide +kernel)
  have hbefore : conflicts 2 2 (symbolAt twoSquares.metaValues) = 9 := by decide +kernel
  have hafter : conflicts 2 2 (symbolAt [[[2, 1], [2, 1]], [[2, 2], [1, 1]]]) = 8 := by
    decide +kernel
  have hrejected : twoSquares.acceptsValues [(0, 1), (1, 1)] = some false := by decide +kernel
  rw [hbefore, hafter, hrejected] at hdecided
  cases hdecided

theorem acceptsValues_eq_twoSquares : twoSquares.acceptsValues [(0, 1)] =
    some (decide (conflicts 2 2 (symbolAt [[[2, 1], [2, 1]], [[1, 2], [1, 1]]]) ≤
      conflicts 2 2 (symbolAt twoSquares.metaValues))) := by
  have hchoices : [(0, 1)].mapM twoSquares.choice = some [((0, 0, 0), 1)] := rfl
  have happart : ChangesApart twoSquares.metaValues 2 [((0, 0, 0), 1)] :=
    ⟨fun _ => by decide, List.pairwise_singleton _ _⟩
  exact acceptsValues_eq fits_twoSquares (by decide) hchoices happart (by decide +kernel)

end TwoSquares

end LatinSquares.LocalSearch
