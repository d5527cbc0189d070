/-
# Which bags of meta variables are tried

`satisfyPredicateForMetavars` of `solver/HillClimbingSolver.cpp`: a bag is tried if every
cell in it has a choice of values and is related to another cell of the bag. One pass
marks each cell together with the first related one in front of it, and so passes over a
cell whose later relatives all have an earlier one.
-/

import Mathlib.Data.List.Induction
import LatinSquares.LocalSearch.Solver

namespace LatinSquares.LocalSearch

/-- Square, row and column of a cell. -/
abbrev Position := UInt8 × UInt8 × UInt8

/-- The position of a meta variable. -/
def MetaVariable.position (mv : MetaVariable) : Position :=
  (mv.matrixIndex, mv.rowIndex, mv.columnIndex)

/-- The same row or column of one square, or the same cell of two. -/
def related (cell tuple : Position) : Bool :=
  if cell.1 == tuple.1 then cell.2.1 == tuple.2.1 || cell.2.2 == tuple.2.2
  else cell.2.1 == tuple.2.1 && cell.2.2 == tuple.2.2

/-- The variables of the pass. -/
structure Marks where
  found : List Position := []
  satisfiedIndices : List Bool

/-- One round of the pass. -/
def Marks.step (marks : Marks) (cell : Position) : Marks :=
  { found := marks.found ++ [cell]
    satisfiedIndices :=
      match marks.found.findIdx? (related cell) with
      | some k => (marks.satisfiedIndices.set marks.found.length true).set k true
      | none => marks.satisfiedIndices }

/-- The marks a list of cells ends with. -/
def markCells (cells : List Position) : Marks :=
  cells.foldl Marks.step { satisfiedIndices := List.replicate cells.length false }

/-- `satisfyPredicateForMetavars` for the indices of meta variables. -/
def satisfyPredicateForMetavars (metaVariables : List MetaVariable)
    (indices : List (Fin metaVariables.length)) : Bool :=
  if indices.any fun i => (metaVariables.get i).variables_.length ≤ 1 then false
  else if indices.length = 1 then true
  else (markCells (indices.map fun i => (metaVariables.get i).position)).satisfiedIndices.all id

/-- What the predicate asks for: a choice of values everywhere, and in a bag of two or more
another related cell for each. -/
structure NoneIsolated (metaVariables : List MetaVariable)
    (indices : List (Fin metaVariables.length)) : Prop where
  choice : ∀ i ∈ indices, 2 ≤ (metaVariables.get i).variables_.length
  other : 2 ≤ indices.length → ∀ i ∈ indices, ∃ k ∈ indices, k ≠ i ∧
    related (metaVariables.get i).position (metaVariables.get k).position = true

theorem related_comm (cell tuple : Position) : related cell tuple = related tuple cell := by
  simp only [related, eq_comm, Bool.beq_comm]

/-- The cells at two places of a list are related. -/
def RelatedAt (cells : List Position) (j k : Nat) : Prop :=
  ∃ a b, cells[j]? = some a ∧ cells[k]? = some b ∧ related a b = true

/-- The cell at `m` meets the one at `j` as its first relative. -/
def IsFirstRelative (cells : List Position) (m j : Nat) : Prop :=
  RelatedAt cells m j ∧ ∀ k < j, ¬ RelatedAt cells m k

/-- Place `j` is marked for a relative in front of it, or as the first one of a later cell. -/
def Marked (cells : List Position) (j : Nat) : Prop :=
  (∃ k < j, RelatedAt cells j k) ∨ ∃ m > j, IsFirstRelative cells m j

/-- The cell at `j` has no relative in front of it, and is the first relative of none. -/
def PassedOver (cells : List Position) (j : Nat) : Prop :=
  (∀ k < j, ¬ RelatedAt cells j k) ∧
    ∀ m > j, RelatedAt cells m j → ∃ k < j, RelatedAt cells m k

variable {cells : List Position} {cell : Position} {j k m : Nat}

theorem RelatedAt.symm (h : RelatedAt cells j k) : RelatedAt cells k j := by
  obtain ⟨a, b, ha, hb, hrelated⟩ := h
  exact ⟨b, a, hb, ha, related_comm a b ▸ hrelated⟩

theorem RelatedAt.lt (h : RelatedAt cells j k) : j < cells.length ∧ k < cells.length := by
  obtain ⟨a, b, ha, hb, -⟩ := h
  exact ⟨(List.getElem?_eq_some_iff.mp ha).1, (List.getElem?_eq_some_iff.mp hb).1⟩

theorem Marked.lt (h : Marked cells j) : j < cells.length := by
  rcases h with ⟨k, -, hrelated⟩ | ⟨m, -, hrelated, -⟩
  · exact hrelated.lt.1
  · exact hrelated.lt.2

theorem relatedAt_append (hj : j < cells.length) (hk : k < cells.length) :
    RelatedAt (cells ++ [cell]) j k ↔ RelatedAt cells j k := by
  unfold RelatedAt
  rw [List.getElem?_append_left hj, List.getElem?_append_left hk]

theorem relatedAt_last (hk : k < cells.length) :
    RelatedAt (cells ++ [cell]) cells.length k ↔ related cell cells[k] = true := by
  unfold RelatedAt
  rw [List.getElem?_append_left hk, List.getElem?_concat_length, List.getElem?_eq_getElem hk]
  simp

/-- The search of the pass stops at the first relative. -/
theorem findIdx?_related_eq_some :
    cells.findIdx? (related cell) = some j ↔
      j < cells.length ∧ IsFirstRelative (cells ++ [cell]) cells.length j := by
  rw [List.findIdx?_eq_some_iff_getElem]
  constructor
  · rintro ⟨hj, hrelated, hfirst⟩
    refine ⟨hj, (relatedAt_last hj).mpr hrelated, ?_⟩
    intro k hk hbefore
    exact hfirst k hk ((relatedAt_last (hk.trans hj)).mp hbefore)
  · rintro ⟨hj, hrelated, hfirst⟩
    refine ⟨hj, (relatedAt_last hj).mp hrelated, ?_⟩
    intro k hk hbefore
    exact hfirst k hk ((relatedAt_last (hk.trans hj)).mpr hbefore)

theorem findIdx?_related_eq_none :
    cells.findIdx? (related cell) = none ↔
      ¬ ∃ k < cells.length, RelatedAt (cells ++ [cell]) cells.length k := by
  rw [List.findIdx?_eq_none_iff]
  constructor
  · rintro hnone ⟨k, hk, hrelated⟩
    have := hnone cells[k] (List.getElem_mem hk)
    rw [(relatedAt_last hk).mp hrelated] at this
    cases this
  · intro hnone x hx
    obtain ⟨k, hk, rfl⟩ := List.getElem_of_mem hx
    cases hrelated : related cell cells[k] with
    | false => rfl
    | true => exact absurd ⟨k, hk, (relatedAt_last hk).mpr hrelated⟩ hnone

/-- A further cell marks its first relative. -/
theorem marked_append_of_lt (hj : j < cells.length) :
    Marked (cells ++ [cell]) j ↔
      Marked cells j ∨ IsFirstRelative (cells ++ [cell]) cells.length j := by
  have hrelated : ∀ {m k}, m < cells.length → k ≤ j →
      (RelatedAt (cells ++ [cell]) m k ↔ RelatedAt cells m k) := fun hm hk =>
    relatedAt_append hm (lt_of_le_of_lt hk hj)
  have hfirst : ∀ {m}, m < cells.length →
      (IsFirstRelative (cells ++ [cell]) m j ↔ IsFirstRelative cells m j) := by
    intro m hm
    apply and_congr (hrelated hm le_rfl)
    apply forall₂_congr
    intro k hk
    rw [hrelated hm hk.le]
  constructor
  · rintro (⟨k, hk, hbefore⟩ | ⟨m, hm, hafter⟩)
    · exact Or.inl (Or.inl ⟨k, hk, (hrelated hj hk.le).mp hbefore⟩)
    · have hbound := hafter.1.lt.1
      rw [List.length_append, List.length_singleton] at hbound
      rcases Nat.lt_succ_iff_lt_or_eq.mp hbound with hlt | rfl
      · exact Or.inl (Or.inr ⟨m, hm, (hfirst hlt).mp hafter⟩)
      · exact Or.inr hafter
  · rintro ((⟨k, hk, hbefore⟩ | ⟨m, hm, hafter⟩) | hlast)
    · exact Or.inl ⟨k, hk, (hrelated hj hk.le).mpr hbefore⟩
    · exact Or.inr ⟨m, hm, (hfirst hafter.1.lt.1).mpr hafter⟩
    · exact Or.inr ⟨cells.length, hj, hlast⟩

/-- A further cell is marked itself if it has a relative. -/
theorem marked_append_last :
    Marked (cells ++ [cell]) cells.length ↔
      ∃ k < cells.length, RelatedAt (cells ++ [cell]) cells.length k := by
  constructor
  · rintro (hbefore | ⟨m, hm, hafter⟩)
    · exact hbefore
    · have hbound := hafter.1.lt.1
      rw [List.length_append, List.length_singleton] at hbound
      omega
  · exact Or.inl

/-- What the variables of the pass hold after the cells given. -/
structure Marks.Exact (size : Nat) (cells : List Position) (marks : Marks) : Prop where
  found : marks.found = cells
  size_eq : marks.satisfiedIndices.length = size
  mark_iff : ∀ j, marks.satisfiedIndices[j]? = some true ↔ Marked cells j

theorem Marks.Exact.step {size : Nat} {marks : Marks} (h : marks.Exact size cells)
    (hroom : cells.length < size) : (marks.step cell).Exact size (cells ++ [cell]) := by
  have hplace : ∀ j, j < cells.length ∨ j = cells.length ∨ cells.length < j := fun j => by omega
  cases hfind : cells.findIdx? (related cell) with
  | none =>
      have hnone := findIdx?_related_eq_none.mp hfind
      have hstep : marks.step cell = ⟨cells ++ [cell], marks.satisfiedIndices⟩ := by
        rw [Marks.step, h.found, hfind]
      rw [hstep]
      refine ⟨rfl, h.size_eq, fun j => (h.mark_iff j).trans ?_⟩
      rcases hplace j with hlt | rfl | hgt
      · rw [marked_append_of_lt hlt, or_iff_left fun hlast => hnone ⟨j, hlt, hlast.1⟩]
      · rw [marked_append_last]
        exact iff_of_false (fun hmarked => lt_irrefl _ hmarked.lt) hnone
      · refine iff_of_false (fun hmarked => absurd hmarked.lt (by omega)) fun hmarked => ?_
        have := hmarked.lt
        simp at this
        omega
  | some first =>
      obtain ⟨hfirstlt, hfirst⟩ := findIdx?_related_eq_some.mp hfind
      have hstep : marks.step cell = ⟨cells ++ [cell],
          (marks.satisfiedIndices.set cells.length true).set first true⟩ := by
        rw [Marks.step, h.found, hfind]
      rw [hstep]
      refine ⟨rfl, by simpa using h.size_eq, fun j => ?_⟩
      have hset : ((marks.satisfiedIndices.set cells.length true).set first true)[j]? = some true ↔
          j = first ∨ j = cells.length ∨ marks.satisfiedIndices[j]? = some true := by
        rw [List.getElem?_set, List.getElem?_set]
        have hsize := h.size_eq
        simp only [List.length_set]
        grind
      rw [hset, h.mark_iff]
      rcases hplace j with hlt | rfl | hgt
      · rw [marked_append_of_lt hlt]
        constructor
        · rintro (rfl | rfl | hmarked)
          · exact Or.inr hfirst
          · exact absurd hlt (lt_irrefl _)
          · exact Or.inl hmarked
        · rintro (hmarked | hlast)
          · exact Or.inr (Or.inr hmarked)
          · -- the first relative is one place only
            left
            rcases lt_trichotomy j first with hjf | heq | hfj
            · exact absurd hlast.1 (hfirst.2 j hjf)
            · exact heq
            · exact absurd hfirst.1 (hlast.2 first hfj)
      · rw [marked_append_last]
        exact iff_of_true (Or.inr (Or.inl rfl)) ⟨first, hfirstlt, hfirst.1⟩
      · refine iff_of_false ?_ fun hmarked => ?_
        · rintro (rfl | rfl | hmarked)
          · omega
          · omega
          · have := hmarked.lt
            omega
        · have := hmarked.lt
          simp at this
          omega

theorem exact_foldl (size : Nat) (cells : List Position) (h : cells.length ≤ size) :
    (cells.foldl Marks.step { satisfiedIndices := List.replicate size false }).Exact size
      cells := by
  induction cells using List.reverseRecOn with
  | nil =>
      refine ⟨rfl, List.length_replicate, fun j => iff_of_false ?_ fun hmarked => ?_⟩
      · simp [List.getElem?_replicate]
      · exact absurd hmarked.lt (Nat.not_lt_zero j)
  | append_singleton cells cell ih =>
      rw [List.length_append, List.length_singleton] at h
      rw [List.foldl_append]
      exact (ih (by omega)).step h

/-- The pass succeeds when every cell is marked. -/
theorem all_markCells (cells : List Position) :
    (markCells cells).satisfiedIndices.all id = true ↔ ∀ j < cells.length, Marked cells j := by
  have h := exact_foldl cells.length cells le_rfl
  change (markCells cells).Exact cells.length cells at h
  rw [List.all_eq_true]
  constructor
  · intro hall j hj
    rw [← h.size_eq] at hj
    apply (h.mark_iff j).mp
    rw [List.getElem?_eq_getElem hj]
    exact congrArg some (hall _ (List.getElem_mem hj))
  · intro hall mark hmark
    obtain ⟨j, hj, rfl⟩ := List.getElem_of_mem hmark
    have hmarked := (h.mark_iff j).mpr (hall j (h.size_eq ▸ hj))
    rw [List.getElem?_eq_getElem hj] at hmarked
    exact Option.some.inj hmarked

theorem not_marked_iff : ¬ Marked cells j ↔ PassedOver cells j := by
  unfold Marked PassedOver IsFirstRelative
  grind

section Bags

variable {metaVariables : List MetaVariable} {indices : List (Fin metaVariables.length)}

theorem relatedAt_indices (hj : j < indices.length) (hk : k < indices.length) :
    RelatedAt (indices.map fun i => (metaVariables.get i).position) j k ↔
      related (metaVariables.get indices[j]).position
        (metaVariables.get indices[k]).position = true := by
  unfold RelatedAt
  simp [hj, hk]

/-- Two places of a list without repetitions are related when two of its entries are. -/
theorem exists_relatedAt_iff (hdistinct : indices.Nodup) (hj : j < indices.length) :
    (∃ k ≠ j, RelatedAt (indices.map fun i => (metaVariables.get i).position) j k) ↔
      ∃ k ∈ indices, k ≠ indices[j] ∧ related (metaVariables.get indices[j]).position
        (metaVariables.get k).position = true := by
  constructor
  · rintro ⟨k, hne, hrelated⟩
    have hk : k < indices.length := by simpa using hrelated.lt.2
    refine ⟨indices[k], List.getElem_mem hk, ?_, (relatedAt_indices hj hk).mp hrelated⟩
    intro heq
    exact hne ((hdistinct.getElem_inj_iff).mp heq)
  · rintro ⟨i, hi, hne, hrelated⟩
    obtain ⟨k, hk, rfl⟩ := List.getElem_of_mem hi
    refine ⟨k, ?_, (relatedAt_indices hj hk).mpr hrelated⟩
    rintro rfl
    exact hne rfl

theorem exists_relatedAt_of_marked (h : Marked cells j) : ∃ k ≠ j, RelatedAt cells j k := by
  rcases h with ⟨k, hk, hrelated⟩ | ⟨m, hm, hrelated, -⟩
  · exact ⟨k, hk.ne, hrelated⟩
  · exact ⟨m, hm.ne', hrelated.symm⟩

/-- The answer is the intended one unless a bag without isolated cells has a cell that is
passed over. -/
theorem satisfyPredicateForMetavars_iff (hdistinct : indices.Nodup) :
    (satisfyPredicateForMetavars metaVariables indices = true ↔
        NoneIsolated metaVariables indices) ↔
      (NoneIsolated metaVariables indices → 2 ≤ indices.length → ∀ j < indices.length,
        ¬ PassedOver (indices.map fun i => (metaVariables.get i).position) j) := by
  unfold satisfyPredicateForMetavars
  split
  · rename_i hfew
    -- a cell without a choice of values makes both sides false
    have hisolated : ¬ NoneIsolated metaVariables indices := by
      intro hnone
      obtain ⟨i, hi, hle⟩ := List.any_eq_true.mp hfew
      have := hnone.choice i hi
      have := of_decide_eq_true hle
      omega
    simp [hisolated]
  · rename_i hmany
    have hchoice : ∀ i ∈ indices, 2 ≤ (metaVariables.get i).variables_.length := by
      intro i hi
      by_contra hle
      exact hmany (List.any_eq_true.mpr ⟨i, hi, decide_eq_true (by omega)⟩)
    split
    · rename_i hone
      have hnone : NoneIsolated metaVariables indices := ⟨hchoice, fun htwo => by omega⟩
      simp [hnone, hone]
    · rename_i hnotone
      rw [all_markCells, List.length_map]
      simp only [← not_marked_iff, not_not]
      constructor
      · intro hanswer hnone _
        exact hanswer.mpr hnone
      · intro hcovered
        constructor
        · intro hmarked
          refine ⟨hchoice, fun _ i hi => ?_⟩
          obtain ⟨j, hj, rfl⟩ := List.getElem_of_mem hi
          exact (exists_relatedAt_iff hdistinct hj).mp (exists_relatedAt_of_marked (hmarked j hj))
        · intro hnone j hj
          exact hcovered hnone (by omega) j hj

end Bags

section Witnesses

/-- Three cells of a square: the last is related to both others, which are not related. -/
def threeCells : List MetaVariable :=
  [(0, 1), (1, 0), (1, 1)].map fun cell =>
    { matrixIndex := 0, rowIndex := cell.1, columnIndex := cell.2
      variables_ := [[⟨1, true⟩], [⟨1, false⟩]], values := [1, 2] }

/-- All of them, in order. -/
def allThree : List (Fin threeCells.length) := List.finRange threeCells.length

theorem noneIsolated_allThree : NoneIsolated threeCells allThree :=
  ⟨by decide, fun _ => by decide⟩

/-- The same bag is turned down in one order and tried in another. -/
theorem allThree_order_matters :
    satisfyPredicateForMetavars threeCells allThree = false ∧
      NoneIsolated threeCells allThree ∧
      satisfyPredicateForMetavars threeCells allThree.reverse = true :=
  ⟨by decide, noneIsolated_allThree, by decide⟩

theorem satisfyPredicateForMetavars_iff_allThree :
    (satisfyPredicateForMetavars threeCells allThree = true ↔ NoneIsolated threeCells allThree) ↔
      (NoneIsolated threeCells allThree → 2 ≤ allThree.length → ∀ j < allThree.length,
        ¬ PassedOver (allThree.map fun i => (threeCells.get i).position) j) :=
  satisfyPredicateForMetavars_iff (by decide)

end Witnesses

end LatinSquares.LocalSearch
