/-
# The shape of `metaValues`

The constructor makes room in `metaValues` cell by cell, and then gives the first row of every
square the length of the second one before it writes constants.
-/

import LatinSquares.LocalSearch.Construction
import LatinSquares.Math.Loops
import Mathlib.Data.List.GetD

namespace LatinSquares.LocalSearch

open LatinSquares.Math

variable {metaValues metaValues' : List (List (List UInt32))} {m : MetaVariable}
variable {t i j : Nat} {rows rows' : List (List UInt32)}

/-- One row of a square; there are no cells in a row that does not exist. -/
def rowAt (metaValues : List (List (List UInt32))) (t i : Nat) : List UInt32 :=
  (metaValues.getD t []).getD i []

theorem metaValueAt_eq (metaValues : List (List (List UInt32))) (t i j : Nat) :
    metaValueAt metaValues (t, i, j) = (rowAt metaValues t i)[j]? := by
  unfold metaValueAt rowAt
  rw [List.getD_eq_getElem?_getD, List.getD_eq_getElem?_getD]
  cases metaValues[t]? with
  | none => simp
  | some rows => cases hrow : rows[i]? <;> simp [hrow]

/-- Nothing becomes shorter. -/
structure Grows (metaValues metaValues' : List (List (List UInt32))) : Prop where
  squares : metaValues.length ≤ metaValues'.length
  rows : ∀ t, (metaValues.getD t []).length ≤ (metaValues'.getD t []).length
  cells : ∀ t i, (rowAt metaValues t i).length ≤ (rowAt metaValues' t i).length

/-- There is room for a cell. -/
structure HasPlace (metaValues : List (List (List UInt32))) (place : Nat × Nat × Nat) : Prop where
  square : place.1 < metaValues.length
  row : place.2.1 < (metaValues.getD place.1 []).length
  cell : place.2.2 < (rowAt metaValues place.1 place.2.1).length

theorem Grows.refl (metaValues : List (List (List UInt32))) : Grows metaValues metaValues :=
  ⟨le_rfl, fun _ => le_rfl, fun _ _ => le_rfl⟩

theorem Grows.trans {metaValues'' : List (List (List UInt32))} (h : Grows metaValues metaValues')
    (h' : Grows metaValues' metaValues'') : Grows metaValues metaValues'' :=
  ⟨h.squares.trans h'.squares, fun t => (h.rows t).trans (h'.rows t),
    fun t i => (h.cells t i).trans (h'.cells t i)⟩

theorem HasPlace.grows {place : Nat × Nat × Nat} (h : HasPlace metaValues place)
    (hgrows : Grows metaValues metaValues') : HasPlace metaValues' place :=
  ⟨h.square.trans_le hgrows.squares, h.row.trans_le (hgrows.rows _),
    h.cell.trans_le (hgrows.cells _ _)⟩

section Growing

variable {A : Type} {l : List A} {index k : Nat} {fill : A}

theorem length_growFor : (growFor index fill l).length = max l.length (index + 1) := by
  rw [growFor, List.length_append, List.length_replicate]
  omega

theorem getD_growFor : (growFor index fill l).getD k fill = l.getD k fill := by
  rw [growFor, List.getD_eq_getElem?_getD, List.getD_eq_getElem?_getD]
  rcases Nat.lt_or_ge k l.length with hlt | hge
  · rw [List.getElem?_append_left hlt]
  · rw [List.getElem?_append_right hge, List.getElem?_eq_none hge, List.getElem?_replicate]
    split <;> rfl

theorem getD_modify (f : A → A) : (l.modify index f).getD k fill =
    if k = index ∧ k < l.length then f (l.getD k fill) else l.getD k fill := by
  rw [List.getD_eq_getElem?_getD, List.getD_eq_getElem?_getD, List.getElem?_modify]
  by_cases hk : k = index
  · subst hk
    rcases Nat.lt_or_ge k l.length with hlt | hge
    · simp [hlt]
    · simp [Nat.not_lt.mpr hge]
  · simp [hk, Ne.symm hk]

end Growing

/-- The rows of a square after room has been made. -/
theorem getD_reserve (metaValues : List (List (List UInt32))) (m : MetaVariable) (t : Nat) :
    (reserve metaValues m).getD t [] = if t = m.matrixIndex.toNat then
      (growFor m.rowIndex.toNat [] (metaValues.getD t [])).modify m.rowIndex.toNat
        (growFor m.columnIndex.toNat 0) else metaValues.getD t [] := by
  rw [reserve, getD_modify, getD_growFor, length_growFor]
  by_cases ht : t = m.matrixIndex.toNat
  · rw [if_pos ht, if_pos ⟨ht, by omega⟩]
  · rw [if_neg ht, if_neg fun h => ht h.1]

theorem rowAt_reserve (metaValues : List (List (List UInt32))) (m : MetaVariable) (t i : Nat) :
    rowAt (reserve metaValues m) t i =
      if t = m.matrixIndex.toNat ∧ i = m.rowIndex.toNat then
        growFor m.columnIndex.toNat 0 (rowAt metaValues t i) else rowAt metaValues t i := by
  rw [rowAt, getD_reserve]
  by_cases ht : t = m.matrixIndex.toNat
  · rw [if_pos ht, getD_modify, getD_growFor, length_growFor]
    by_cases hi : i = m.rowIndex.toNat
    · rw [if_pos ⟨hi, by omega⟩, if_pos ⟨ht, hi⟩]
      rfl
    · rw [if_neg fun h => hi h.1, if_neg fun h => hi h.2]
      rfl
  · rw [if_neg ht, if_neg fun h => ht h.1]
    rfl

theorem grows_reserve (metaValues : List (List (List UInt32))) (m : MetaVariable) :
    Grows metaValues (reserve metaValues m) where
  squares := by
    rw [reserve, List.length_modify, length_growFor]
    exact le_max_left _ _
  rows t := by
    rw [getD_reserve]
    split
    · rw [List.length_modify, length_growFor]
      exact le_max_left _ _
    · exact le_rfl
  cells t i := by
    rw [rowAt_reserve]
    split
    · rw [length_growFor]
      exact le_max_left _ _
    · exact le_rfl

theorem hasPlace_reserve (metaValues : List (List (List UInt32))) (m : MetaVariable) :
    HasPlace (reserve metaValues m) m.place where
  square := by
    rw [reserve, List.length_modify, length_growFor]
    exact lt_max_of_lt_right (Nat.lt_succ_self _)
  row := by
    rw [getD_reserve]
    simp only [MetaVariable.place, if_true, List.length_modify, length_growFor]
    exact lt_max_of_lt_right (Nat.lt_succ_self _)
  cell := by
    rw [rowAt_reserve]
    simp only [MetaVariable.place, and_self, if_true, length_growFor]
    exact lt_max_of_lt_right (Nat.lt_succ_self _)

/-- There is room for every meta variable in the end. -/
theorem hasPlace_foldl_reserve {metaVariables : List MetaVariable} (hm : m ∈ metaVariables) :
    HasPlace (metaVariables.foldl reserve metaValues) m.place := by
  have hgrows : ∀ (l : List MetaVariable) (metaValues : List (List (List UInt32))),
      Grows metaValues (l.foldl reserve metaValues) := by
    intro l
    induction l with
    | nil => exact fun metaValues => Grows.refl metaValues
    | cons m l ih => exact fun metaValues => (grows_reserve metaValues m).trans (ih _)
  induction metaVariables generalizing metaValues with
  | nil => cases hm
  | cons first rest ih =>
      rcases List.mem_cons.mp hm with rfl | htail
      · exact (hasPlace_reserve metaValues m).grows (hgrows rest _)
      · exact ih htail

theorem length_resize {A : Type} {size : Nat} {fill : A} {l : List A} :
    (resize size fill l).length = size := by
  rw [resize, List.length_append, List.length_take, List.length_replicate]
  omega

/-- The constants of a square: those of the first column, and in the first square those of
the first row. The other cells stay where they are. -/
structure Constants (k : Nat) (rows rows' : List (List UInt32)) : Prop where
  width : ∀ j < (rows.getD 1 []).length, ∃ symbol, (rows'.getD 0 [])[j]? = some symbol
  cells : ∀ i < rows.length, 0 < i → ∀ j < (rows.getD i []).length,
    ∃ symbol, (rows'.getD i [])[j]? = some symbol
  column : ∀ i < rows.length, (rows'.getD i [])[0]? = some (UInt32.ofNat (i + 1))
  row : k = 0 → ∀ j < (rows.getD 1 []).length,
    (rows'.getD 0 [])[j]? = some (UInt32.ofNat (j + 1))

/-- A row before the constants of the first square are written. -/
def columnFixed (rows : List (List UInt32)) (i : Nat) : List UInt32 :=
  (if i = 0 then resize (rows.getD 1 []).length 0 (rows.getD 0 []) else rows.getD i []).set 0
    (UInt32.ofNat (i + 1))

theorem getD_fixSquare {k : Nat} (h : fixSquare k rows = some rows') (hi : i < rows.length) :
    columnFixed rows i ≠ [] ∧ rows'.getD i [] = if k = 0 ∧ i = 0 then
      (columnFixed rows i).mapIdx fun j _ => UInt32.ofNat (j + 1) else columnFixed rows i := by
  obtain ⟨second, hsecond, h⟩ := Option.bind_eq_some_iff.mp h
  obtain ⟨_, hfilled, hresult⟩ := Option.bind_eq_some_iff.mp h
  have hwidth : rows.getD 1 [] = second := by
    rw [List.getD_eq_getElem?_getD, hsecond, Option.getD_some]
  have hfilled : ∀ row ∈ rows.modify 0 (resize second.length 0), row ≠ [] := by
    by_contra hempty
    rw [guard, if_neg hempty] at hfilled
    cases hfilled
  have hrow : (rows.modify 0 (resize second.length 0)).getD i [] =
      if i = 0 then resize (rows.getD 1 []).length 0 (rows.getD 0 []) else rows.getD i [] := by
    rw [getD_modify, hwidth]
    by_cases hzero : i = 0
    · rw [if_pos ⟨hzero, hi⟩, if_pos hzero, hzero]
    · rw [if_neg fun h => hzero h.1, if_neg hzero]
  have hlt : i < (rows.modify 0 (resize second.length 0)).length := by
    rwa [List.length_modify]
  have hfixed : ((rows.modify 0 (resize second.length 0)).mapIdx fun i row =>
      row.set 0 (UInt32.ofNat (i + 1))).getD i [] = columnFixed rows i := by
    rw [columnFixed, ← hrow, List.getD_eq_getElem?_getD, List.getElem?_mapIdx,
      List.getElem?_eq_getElem hlt, List.getD_eq_getElem _ _ hlt]
    rfl
  constructor
  · intro hempty
    rw [columnFixed, ← hrow, List.set_eq_nil_iff, List.getD_eq_getElem _ _ hlt] at hempty
    exact hfilled _ (List.getElem_mem hlt) hempty
  · have hresult := (Option.some.inj hresult).symm
    rw [hresult]
    by_cases hk : k = 0
    · rw [if_pos hk, getD_modify, hfixed]
      by_cases hzero : i = 0
      · rw [if_pos ⟨hzero, by rwa [List.length_mapIdx]⟩, if_pos ⟨hk, hzero⟩]
      · rw [if_neg fun h => hzero h.1, if_neg fun h => hzero h.2]
    · rw [if_neg hk, if_neg fun h => hk h.1, hfixed]

theorem constants_of_fixSquare {k : Nat} (h : fixSquare k rows = some rows') :
    Constants k rows rows' := by
  obtain ⟨second, hsecond, -⟩ := Option.bind_eq_some_iff.mp h
  have hzero : 0 < rows.length := by
    have hone := (List.getElem?_eq_some_iff.mp hsecond).1
    omega
  have hcell {l : List UInt32} {j : Nat} (hj : j < l.length) : ∃ symbol, l[j]? = some symbol :=
    ⟨_, List.getElem?_eq_getElem hj⟩
  have hfirst : (columnFixed rows 0).length = (rows.getD 1 []).length := by
    rw [columnFixed, List.length_set, if_pos rfl, length_resize]
  constructor
  · intro j hj
    rw [(getD_fixSquare h hzero).2]
    apply hcell
    split
    · rwa [List.length_mapIdx, hfirst]
    · rwa [hfirst]
  · intro i hi hpos j hj
    rw [(getD_fixSquare h hi).2, if_neg fun h => hpos.ne' h.2]
    apply hcell
    rwa [columnFixed, if_neg hpos.ne', List.length_set]
  · intro i hi
    obtain ⟨hne, hrow⟩ := getD_fixSquare h hi
    rw [hrow]
    have hpos : 0 < (columnFixed rows i).length := List.length_pos_of_ne_nil hne
    split
    · next hboth =>
        obtain ⟨-, rfl⟩ := hboth
        rw [List.getElem?_mapIdx, List.getElem?_eq_getElem hpos]
        rfl
    · rw [columnFixed, List.length_set] at hpos
      rw [columnFixed, List.getElem?_set_self hpos]
  · intro hk j hj
    rw [(getD_fixSquare h hzero).2, if_pos ⟨hk, rfl⟩, List.getElem?_mapIdx,
      List.getElem?_eq_getElem (by rwa [hfirst])]
    rfl

/-- The squares are treated one by one. -/
theorem constants_of_fixConstants (h : fixConstants metaValues = some metaValues')
    (ht : t < metaValues.length) : Constants t (metaValues.getD t []) (metaValues'.getD t []) := by
  have hforall := forall₂_of_mapM h
  have hlength := hforall.length_eq
  rw [List.length_zipIdx] at hlength
  have hget := List.Forall₂.get hforall (by rwa [List.length_zipIdx]) (by rwa [← hlength])
  rw [List.getD_eq_getElem _ _ ht, List.getD_eq_getElem _ _ (hlength ▸ ht)]
  apply constants_of_fixSquare
  simpa using hget

end LatinSquares.LocalSearch
