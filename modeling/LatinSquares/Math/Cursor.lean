/-
# Scanning an ascending list with a cursor

Two ascending lists can be compared in one pass: a cursor moves forward in the second
list while its entry is below the entry at hand of the first. A cursor never moves
back, so entries that come out of order are looked for where the cursor stands.
-/

import Mathlib.Data.List.Sort

namespace LatinSquares.Math

variable {α : Type} [LinearOrder α] {l : List α} {x y : α}

/-- The cursor, given by the entries not yet passed, moved to the first entry that is
not below `x`. -/
def advance (rest : List α) (x : α) : List α := rest.dropWhile (· < x)

/-- The entry at the cursor is `x`. -/
def atCursor (rest : List α) (x : α) : Bool := rest.head? == some x

theorem atCursor_eq (rest : List α) (x : α) : atCursor rest x = decide (x ∈ rest.head?.toList) := by
  rw [Bool.eq_iff_iff, decide_eq_true_iff, Option.mem_toList]
  simp [atCursor]

theorem advance_eq_self (h : ∀ y ∈ l, x ≤ y) : advance l x = l := by
  cases l with
  | nil => rfl
  | cons y l =>
      have hy : ¬ y < x := not_lt.mpr (h y List.mem_cons_self)
      simp [advance, hy]

theorem advance_cons_of_lt (h : y < x) : advance (y :: l) x = advance l x :=
  List.dropWhile_cons_of_pos (by simpa using h)

theorem advance_cons_of_not_lt (h : ¬ y < x) : advance (y :: l) x = y :: l :=
  List.dropWhile_cons_of_neg (by simpa using h)

/-- The cursor stops at an entry that is not below `x`. -/
theorem le_of_head?_advance (hy : (advance l x).head? = some y) : x ≤ y := by
  induction l with
  | nil => cases hy
  | cons a l ih =>
      by_cases ha : a < x
      · exact ih (advance_cons_of_lt ha ▸ hy)
      · rw [advance_cons_of_not_lt ha] at hy
        cases hy
        exact not_lt.mp ha

/-- Later entries leave the cursor where the larger of the two puts it. -/
theorem advance_advance_of_le (hxy : x ≤ y) : advance (advance l x) y = advance l y := by
  induction l with
  | nil => rfl
  | cons a l ih =>
      by_cases ha : a < x
      · rw [advance_cons_of_lt ha, advance_cons_of_lt (ha.trans_le hxy), ih]
      · rw [advance_cons_of_not_lt ha]

theorem advance_advance_of_ge (hyx : y ≤ x) : advance (advance l x) y = advance l x := by
  cases hrest : advance l x with
  | nil => rfl
  | cons a rest =>
      have ha : x ≤ a := le_of_head?_advance (by rw [hrest, List.head?_cons])
      exact advance_cons_of_not_lt (not_lt.mpr (hyx.trans ha))

theorem advance_advance (l : List α) (x y : α) :
    advance (advance l x) y = advance l (max x y) := by
  cases le_total x y with
  | inl hxy => rw [advance_advance_of_le hxy, max_eq_right hxy]
  | inr hyx => rw [advance_advance_of_ge hyx, max_eq_left hyx]

/-- The entries that are greater than all entries before them. -/
def records : List α → List α
  | [] => []
  | x :: l => x :: (records l).filter (x < ·)

theorem mem_records_cons : y ∈ records (x :: l) ↔ y = x ∨ y ∈ records l ∧ x < y := by
  simp [records]

theorem mem_of_mem_records (hy : y ∈ records l) : y ∈ l := by
  induction l with
  | nil => exact hy
  | cons x l ih =>
      rcases mem_records_cons.mp hy with rfl | ⟨hy, -⟩
      · exact List.mem_cons_self
      · exact List.mem_cons_of_mem _ (ih hy)

/-- All entries of an ascending list are records. -/
theorem mem_records_of_sorted (hl : l.Pairwise (· ≤ ·)) : y ∈ records l ↔ y ∈ l := by
  refine ⟨mem_of_mem_records, fun hy => ?_⟩
  induction l with
  | nil => exact hy
  | cons x l ih =>
      obtain ⟨hhead, htail⟩ := List.pairwise_cons.mp hl
      apply mem_records_cons.mpr
      rcases List.mem_cons.mp hy with rfl | hmem
      · exact Or.inl rfl
      · rcases (hhead y hmem).eq_or_lt with rfl | hlt
        · exact Or.inl rfl
        · exact Or.inr ⟨ih htail hmem, hlt⟩

/-- An ascending list starts with the least of its entries. -/
theorem head?_eq_min? {l m : List Nat} (hl : l.Pairwise (· ≤ ·)) (h : ∀ y, y ∈ m ↔ y ∈ l) :
    l.head? = m.min? := by
  symm
  cases l with
  | nil =>
      rw [List.eq_nil_iff_forall_not_mem.mpr fun y hy => List.not_mem_nil ((h y).mp hy)]
      rfl
  | cons x l =>
      apply List.min?_eq_some_iff.mpr
      refine ⟨(h x).mpr List.mem_cons_self, fun y hy => ?_⟩
      rcases List.mem_cons.mp ((h y).mp hy) with rfl | hmem
      · exact le_rfl
      · exact (List.pairwise_cons.mp hl).1 y hmem

/-- What is appended gives records if it exceeds all entries before. -/
theorem mem_records_append {m : List α} :
    y ∈ records (l ++ m) ↔ y ∈ records l ∨ y ∈ records m ∧ ∀ x ∈ l, x < y := by
  induction l with
  | nil => simp [records]
  | cons a l ih =>
      rw [List.cons_append, mem_records_cons, mem_records_cons, ih, List.forall_mem_cons]
      tauto

/-- After moving to `x` the cursor finds `x` if it is a record. -/
theorem atCursor_advance_self (l : List α) (x : α) :
    atCursor (advance l x) x = decide (x ∈ records l) := by
  rw [Bool.eq_iff_iff, decide_eq_true_iff]
  induction l with
  | nil => simp [advance, atCursor, records]
  | cons a l ih =>
      rw [mem_records_cons]
      by_cases ha : a < x
      · rw [advance_cons_of_lt ha, ih, or_iff_right ha.ne', and_iff_left ha]
      · rw [advance_cons_of_not_lt ha, or_iff_left fun h => ha h.2, eq_comm (b := a)]
        simp [atCursor]

/-- An entry that the cursor has passed is not found any more. -/
theorem atCursor_advance_of_lt (hyx : y < x) : atCursor (advance l x) y = false := by
  have hnot : (advance l x).head? ≠ some y := fun h =>
    absurd (le_of_head?_advance h) (not_le.mpr hyx)
  simpa [atCursor] using hnot

/-- What a cursor at `x` says about `y`, wherever `x` is. -/
theorem atCursor_advance_advance (l : List α) (x y : α) :
    atCursor (advance (advance l x) y) y = decide (y ∈ records l ∧ x ≤ y) := by
  by_cases hyx : y < x
  · rw [advance_advance_of_ge hyx.le, atCursor_advance_of_lt hyx]
    exact (decide_eq_false fun h => absurd h.2 (not_le.mpr hyx)).symm
  · rw [advance_advance_of_le (not_lt.mp hyx), atCursor_advance_self]
    simp [not_lt.mp hyx]

/-- `x` appended and then moved forward past the larger entries. -/
def insertFromBack (l : List α) (x : α) : List α :=
  (l.reverse.orderedInsert (fun a b => b ≤ a) x).reverse

theorem sorted_insertFromBack (hl : l.Pairwise (· ≤ ·)) (x : α) :
    (insertFromBack l x).Pairwise (· ≤ ·) := by
  apply List.pairwise_reverse.mpr
  apply List.Pairwise.orderedInsert
  exact List.pairwise_reverse.mpr hl

theorem pairwise_insertFromBack (hl : l.Pairwise (· < ·)) (hx : x ∉ l) :
    (insertFromBack l x).Pairwise (· < ·) := by
  have hnodup : (insertFromBack l x).Nodup := by
    rw [insertFromBack, List.nodup_reverse]
    apply (List.perm_orderedInsert _ x l.reverse).nodup_iff.mpr
    exact List.nodup_cons.mpr ⟨by simpa using hx, List.nodup_reverse.mpr hl.nodup⟩
  have hsorted := sorted_insertFromBack (hl.imp fun h => h.le) x
  exact hsorted.imp₂ (fun _ _ hab hne => lt_of_le_of_ne hab hne) hnodup

end LatinSquares.Math
