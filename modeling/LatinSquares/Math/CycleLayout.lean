/-
# Cycles laid out in a row

A row of `n` cells is cut into consecutive blocks whose lengths are the parts of a
partition, and each block is turned by one place. Up to renaming the cells every
permutation that fixes exactly the cells in front of the blocks is of this form,
for one partition into parts of at least two.
-/

import LatinSquares.Math.Partition
import Mathlib.Data.List.FinRange
import Mathlib.Data.List.SplitLengths
import Mathlib.Data.Multiset.Sort
import Mathlib.GroupTheory.Perm.Cycle.Concrete

namespace LatinSquares.Math

open Equiv

/-- `R` holds of every cell of the blocks from `start` on and the next cell of its
block, where the first cell follows the last one. -/
def LaidOut (R : Nat → Nat → Prop) : List Nat → Nat → Prop
  | [], _ => True
  | p :: l, start =>
      (∀ i < p, R (start + i) (start + (i + 1) % p)) ∧ LaidOut R l (start + p)

theorem LaidOut.mono {n : Nat} {R S : Nat → Nat → Prop}
    (h : ∀ c < n, ∀ v < n, R c v → S c v) : ∀ {l : List Nat} {start : Nat},
    start + l.sum ≤ n → LaidOut R l start → LaidOut S l start
  | [], _, _, _ => trivial
  | p :: l, start, hsum, hlaid => by
      rw [List.sum_cons] at hsum
      refine ⟨fun i hi => ?_, hlaid.2.mono h (by omega)⟩
      have hmod : (i + 1) % p < p := Nat.mod_lt _ (by omega)
      exact h _ (by omega) _ (by omega) (hlaid.1 i hi)

theorem laidOut_of_forall {n : Nat} {R : Nat → Nat → Prop} (h : ∀ c < n, ∀ v < n, R c v) :
    ∀ {l : List Nat} {start : Nat}, start + l.sum ≤ n → LaidOut R l start
  | [], _, _ => trivial
  | p :: l, start, hsum => by
      rw [List.sum_cons] at hsum
      refine ⟨fun i hi => ?_, laidOut_of_forall h (by omega)⟩
      have hmod : (i + 1) % p < p := Nat.mod_lt _ (by omega)
      exact h _ (by omega) _ (by omega)

/-- The row `L` runs along the blocks from `start` on. -/
def RowLaidOut {n : Nat} (L : Fin n → Fin n) (l : List Nat) (start : Nat) : Prop :=
  LaidOut (fun c v => ∃ h : c < n, (L ⟨c, h⟩ : Nat) = v) l start

/-- The layout determines the row on the cells of the blocks, and only there. -/
theorem rowLaidOut_iff {n : Nat} {L L' : Fin n → Fin n} : ∀ {l : List Nat} {start : Nat},
    start + l.sum ≤ n → RowLaidOut L' l start → (RowLaidOut L l start ↔
      ∀ c : Fin n, start ≤ c → (c : Nat) < start + l.sum → L c = L' c)
  | [], start, _, _ => by
      refine iff_of_true trivial fun c hle hlt => ?_
      simp only [List.sum_nil] at hlt
      omega
  | p :: l, start, hsum, hL' => by
      rw [List.sum_cons] at hsum
      have hrest := rowLaidOut_iff (L := L) (by omega : start + p + l.sum ≤ n) hL'.2
      constructor
      · intro hL c hle hlt
        rw [List.sum_cons] at hlt
        rcases Nat.lt_or_ge c (start + p) with hblock | hlater
        · obtain ⟨i, hi⟩ := Nat.exists_eq_add_of_le hle
          obtain ⟨h, hvalue⟩ := hL.1 i (by omega)
          obtain ⟨h', hvalue'⟩ := hL'.1 i (by omega)
          have hc : c = ⟨start + i, h⟩ := Fin.ext hi
          exact Fin.ext (by rw [hc, hvalue, hvalue'])
        · exact hrest.mp hL.2 c hlater (by omega)
      · intro hagree
        refine ⟨fun i hi => ?_, hrest.mpr fun c hle hlt => hagree c (by omega) ?_⟩
        · obtain ⟨h, hvalue⟩ := hL'.1 i hi
          refine ⟨h, ?_⟩
          rw [hagree ⟨start + i, h⟩ (by simp) (by simp; omega), hvalue]
        · rw [List.sum_cons]
          omega

section Blocks

variable {n : Nat} {l : List Nat} {L : List (Fin n)}

/-- The permutation that turns each block of `L` by one place. -/
def turn (l : List Nat) (L : List (Fin n)) : Perm (Fin n) :=
  ((l.splitLengths L).map List.formPerm).prod

theorem nodup_of_mem_splitLengths (hL : L.Nodup) (hlength : L.length = l.sum) :
    (∀ B ∈ l.splitLengths L, B.Nodup) ∧ (l.splitLengths L).Pairwise List.Disjoint := by
  rw [← List.nodup_flatten, List.flatten_splitLengths _ _ hlength.le]
  exact hL

theorem two_le_length_of_mem (hparts : ∀ p ∈ l, 2 ≤ p) (hlength : L.length = l.sum) :
    ∀ B ∈ l.splitLengths L, 2 ≤ B.length := by
  intro B hB
  apply hparts
  rw [← List.map_splitLengths_length L l hlength.ge]
  exact List.mem_map_of_mem hB

theorem pairwise_disjoint_formPerm (hL : L.Nodup) (hparts : ∀ p ∈ l, 2 ≤ p)
    (hlength : L.length = l.sum) :
    ((l.splitLengths L).map List.formPerm).Pairwise Perm.Disjoint := by
  obtain ⟨hnodup, hdisjoint⟩ := nodup_of_mem_splitLengths hL hlength
  have htwo := two_le_length_of_mem hparts hlength
  rw [List.pairwise_map]
  exact hdisjoint.imp_of_mem fun {B B'} hB hB' h =>
    (List.formPerm_disjoint_iff (hnodup B hB) (hnodup B' hB') (htwo B hB) (htwo B' hB')).mpr h

theorem support_formPerm (hL : L.Nodup) (hparts : ∀ p ∈ l, 2 ≤ p) (hlength : L.length = l.sum)
    {B : List (Fin n)} (hB : B ∈ l.splitLengths L) : B.formPerm.support = B.toFinset := by
  apply List.support_formPerm_of_nodup _ ((nodup_of_mem_splitLengths hL hlength).1 B hB)
  rintro x rfl
  have htwo := two_le_length_of_mem hparts hlength _ hB
  simp at htwo

/-- On each block the turn is the cycle of the block. -/
theorem turn_apply (hL : L.Nodup) (hparts : ∀ p ∈ l, 2 ≤ p) (hlength : L.length = l.sum)
    {B : List (Fin n)} (hB : B ∈ l.splitLengths L) {x : Fin n} (hx : x ∈ B) :
    turn l L x = B.formPerm x := by
  have hsupport : x ∈ B.formPerm.support := by
    rw [support_formPerm hL hparts hlength hB]
    exact List.mem_toFinset.mpr hx
  exact (Perm.eq_on_support_mem_disjoint (List.mem_map_of_mem hB)
    (pairwise_disjoint_formPerm hL hparts hlength) x hsupport).symm

/-- The cells of the blocks are all moved. -/
theorem turn_apply_ne (hL : L.Nodup) (hparts : ∀ p ∈ l, 2 ≤ p) (hlength : L.length = l.sum)
    {x : Fin n} (hx : x ∈ L) : turn l L x ≠ x := by
  rw [← List.flatten_splitLengths L l hlength.le] at hx
  obtain ⟨B, hB, hxB⟩ := List.mem_flatten.mp hx
  rw [turn_apply hL hparts hlength hB hxB]
  apply Perm.mem_support.mp
  rw [support_formPerm hL hparts hlength hB]
  exact List.mem_toFinset.mpr hxB

/-- The lengths of the blocks are the cycle type of the turn. -/
theorem cycleType_turn (hL : L.Nodup) (hparts : ∀ p ∈ l, 2 ≤ p) (hlength : L.length = l.sum) :
    (turn l L).cycleType = l := by
  have hnodup := (nodup_of_mem_splitLengths hL hlength).1
  have hcycle : ∀ f ∈ (l.splitLengths L).map List.formPerm, Perm.IsCycle f := by
    rw [List.forall_mem_map]
    intro B hB
    exact List.isCycle_formPerm (hnodup B hB) (two_le_length_of_mem hparts hlength B hB)
  rw [turn, Perm.cycleType_eq _ rfl hcycle (pairwise_disjoint_formPerm hL hparts hlength),
    List.map_map]
  congr 1
  calc (l.splitLengths L).map ((Finset.card ∘ Perm.support) ∘ List.formPerm)
    _ = (l.splitLengths L).map List.length := by
      apply List.map_congr_left
      intro B hB
      simp only [Function.comp_apply]
      rw [support_formPerm hL hparts hlength hB, List.toFinset_card_of_nodup (hnodup B hB)]
    _ = l := List.map_splitLengths_length L l hlength.ge

/-- A permutation that turns the blocks of consecutive cells has the layout. -/
theorem laidOut_of_blocks {ρ : Perm (Fin n)} : ∀ {l : List Nat} {L : List (Fin n)} {start : Nat},
    L.Nodup → L.map Fin.val = List.range' start l.sum →
    (∀ B ∈ l.splitLengths L, ∀ x ∈ B, ρ x = B.formPerm x) →
    RowLaidOut ρ l start
  | [], _, _, _, _, _ => trivial
  | p :: l, L, start, hnodup, hL, hρ => by
      rw [List.splitLengths_cons, List.forall_mem_cons] at hρ
      have hlength : L.length = p + l.sum := by
        simpa using congrArg List.length hL
      have hcell : ∀ i (h : i < (L.take p).length), ((L.take p)[i] : Nat) = start + i := by
        intro i h
        have hi : i < (L.map Fin.val).length := by
          rw [List.length_take] at h
          rw [List.length_map]
          omega
        rw [List.getElem_take, ← List.getElem_map Fin.val (h := hi)]
        simp [hL]
      have htake : (L.take p).length = p := by
        rw [List.length_take]
        omega
      refine ⟨fun i hi => ?_, laidOut_of_blocks (hnodup.sublist (List.drop_sublist p L)) ?_ hρ.2⟩
      · have hi' : i < (L.take p).length := by rwa [htake]
        have hmod : (i + 1) % p < (L.take p).length := by
          rw [htake]
          exact Nat.mod_lt _ (by omega)
        have hturn := hρ.1 _ (List.getElem_mem hi')
        rw [List.formPerm_apply_getElem _ (hnodup.sublist (List.take_sublist p L))] at hturn
        have hx : (L.take p)[i] = ⟨start + i, by rw [← hcell i hi']; exact Fin.isLt _⟩ :=
          Fin.ext (hcell i hi')
        refine ⟨by rw [← hcell i hi']; exact Fin.isLt _, ?_⟩
        rw [← hx, hturn]
        simp only [htake]
        exact hcell _ hmod
      · rw [List.map_drop, hL, List.sum_cons, List.drop_range']
        simp

end Blocks

/-- The cells from `first` on. -/
def cellsFrom (n first : Nat) : List (Fin n) := (List.finRange n).drop first

theorem nodup_cellsFrom (n first : Nat) : (cellsFrom n first).Nodup :=
  (List.nodup_finRange n).sublist (List.drop_sublist _ _)

theorem length_cellsFrom (n first : Nat) : (cellsFrom n first).length = n - first := by
  simp [cellsFrom]

theorem map_val_cellsFrom (n first : Nat) :
    (cellsFrom n first).map Fin.val = List.range' first (n - first) := by
  have hrange : (List.finRange n).map Fin.val = List.range' 0 n :=
    List.ext_getElem (by simp) fun i hi hi' => by simp
  rw [cellsFrom, List.map_drop, hrange, List.drop_range']
  simp

theorem mem_cellsFrom {n first : Nat} {c : Fin n} : c ∈ cellsFrom n first ↔ first ≤ c := by
  have hmem : c ∈ cellsFrom n first ↔ (c : Nat) ∈ (cellsFrom n first).map Fin.val := by
    simp [Fin.val_inj]
  rw [hmem, map_val_cellsFrom, List.mem_range'_1]
  have := c.isLt
  omega

/-- The permutation that turns the blocks of consecutive cells from `first` on. -/
def cyclePermutation (n first : Nat) (l : List Nat) : Perm (Fin n) := turn l (cellsFrom n first)

section CyclePermutation

variable {n first : Nat} {l : List Nat}

theorem laidOut_cyclePermutation (hparts : ∀ p ∈ l, 2 ≤ p) (hsum : l.sum = n - first) :
    RowLaidOut (cyclePermutation n first l) l first := by
  apply laidOut_of_blocks (nodup_cellsFrom n first)
  · rw [map_val_cellsFrom, hsum]
  · intro B hB x hx
    exact turn_apply (nodup_cellsFrom n first) hparts (by rw [length_cellsFrom, hsum]) hB hx

/-- It fixes exactly the cells in front of the blocks. -/
theorem cyclePermutation_apply_eq_iff (hparts : ∀ p ∈ l, 2 ≤ p) (hsum : l.sum = n - first)
    (c : Fin n) : cyclePermutation n first l c = c ↔ (c : Nat) < first := by
  have hlength : (cellsFrom n first).length = l.sum := by rw [length_cellsFrom, hsum]
  have hmoved : ∀ x ∈ cellsFrom n first, cyclePermutation n first l x ≠ x := fun x hx =>
    turn_apply_ne (nodup_cellsFrom n first) hparts hlength hx
  constructor
  · intro hfixed
    by_contra hle
    exact hmoved c (mem_cellsFrom.mpr (by omega)) hfixed
  · intro hlt
    -- the support has as many cells as stand in the blocks
    by_contra hne
    have hsubset :
        insert c (cellsFrom n first).toFinset ⊆ (cyclePermutation n first l).support := by
      intro x hx
      rw [Perm.mem_support]
      rcases Finset.mem_insert.mp hx with rfl | hx
      · exact hne
      · exact hmoved x (List.mem_toFinset.mp hx)
    have hcard := Finset.card_le_card hsubset
    have hnot : c ∉ (cellsFrom n first).toFinset := by
      rw [List.mem_toFinset, mem_cellsFrom]
      omega
    have hsupport : (cyclePermutation n first l).support.card = l.sum := by
      rw [← Perm.sum_cycleType, cyclePermutation,
        cycleType_turn (nodup_cellsFrom n first) hparts hlength, Multiset.sum_coe]
    rw [Finset.card_insert_of_notMem hnot, hsupport,
      List.toFinset_card_of_nodup (nodup_cellsFrom n first), hlength] at hcard
    omega

theorem cycleType_cyclePermutation (hparts : ∀ p ∈ l, 2 ≤ p) (hsum : l.sum = n - first) :
    (cyclePermutation n first l).cycleType = l :=
  cycleType_turn (nodup_cellsFrom n first) hparts (by rw [length_cellsFrom, hsum])

/-- The cycle lengths of a permutation that fixes exactly the cells below `first`, in order. -/
theorem sort_cycleType_mem_partitions (hn : first + 2 ≤ n) (σ : Perm (Fin n))
    (hσ : ∀ c : Fin n, σ c = c ↔ (c : Nat) < first) :
    σ.cycleType.sort (· ≤ ·) ∈ partitions (n - first) 2 := by
  have hparts : ∀ p ∈ σ.cycleType.sort (· ≤ ·), 2 ≤ p := fun p hp =>
    Perm.two_le_of_mem_cycleType ((Multiset.mem_sort _).mp hp)
  have hsupport : σ.support = (cellsFrom n first).toFinset := by
    ext c
    rw [Perm.mem_support, List.mem_toFinset, Ne, hσ c, Nat.not_lt, mem_cellsFrom]
  refine mem_partitions (by omega) (by omega) _ (Multiset.pairwise_sort _ _) hparts ?_
  calc (σ.cycleType.sort (· ≤ ·)).sum
    _ = σ.cycleType.sum := by
      rw [← Multiset.sum_coe, Multiset.sort_eq]
    _ = (cellsFrom n first).length := by
      rw [Perm.sum_cycleType, hsupport, List.toFinset_card_of_nodup (nodup_cellsFrom n first)]
    _ = n - first := length_cellsFrom n first

/-- One partition gives a permutation of the same cycle type. -/
theorem existsUnique_cycleType (hn : first + 2 ≤ n) (σ : Perm (Fin n))
    (hσ : ∀ c : Fin n, σ c = c ↔ (c : Nat) < first) :
    ∃! l, l ∈ partitions (n - first) 2 ∧
      (cyclePermutation n first l).cycleType = σ.cycleType := by
  have hpartition := sum_of_mem_partitions (n := n - first) (m := 2) (by decide) (by omega)
  have hmem := sort_cycleType_mem_partitions hn σ hσ
  have htype : ∀ l ∈ partitions (n - first) 2, (cyclePermutation n first l).cycleType = l :=
    fun l hl => cycleType_cyclePermutation (hpartition l hl).2 (hpartition l hl).1
  refine ⟨_, ⟨hmem, by rw [htype _ hmem, Multiset.sort_eq]⟩, ?_⟩
  rintro l ⟨hl, heq⟩
  rw [htype l hl] at heq
  have hsorted := sorted_of_mem_partitions (by decide) (by omega) l hl
  apply (List.Perm.eq_of_pairwise (fun a b _ _ => le_antisymm) hsorted
    (Multiset.pairwise_sort _ _))
  rw [← Multiset.coe_eq_coe, Multiset.sort_eq, heq]

end CyclePermutation

/-- Up to renaming the cells, a permutation that fixes exactly the cells below
`first` is laid out along a partition of the others. -/
theorem exists_conj_laidOut {n first : Nat} (hn : first + 2 ≤ n) (σ : Perm (Fin n))
    (hσ : ∀ c : Fin n, σ c = c ↔ (c : Nat) < first) :
    ∃ l ∈ partitions (n - first) 2, ∃ τ : Perm (Fin n),
      (∀ c : Fin n, (c : Nat) < first → (τ c : Nat) < first) ∧
        RowLaidOut (τ * σ * τ⁻¹) l first := by
  obtain ⟨l, ⟨hl, htype⟩, -⟩ := existsUnique_cycleType hn σ hσ
  obtain ⟨hsum, hparts⟩ :=
    sum_of_mem_partitions (n := n - first) (m := 2) (by decide) (by omega) l hl
  obtain ⟨τ, hτ⟩ := isConj_iff.mp (Perm.isConj_iff_cycleType_eq.mpr htype.symm)
  refine ⟨l, hl, τ, fun c hc => ?_, ?_⟩
  · apply (cyclePermutation_apply_eq_iff hparts hsum (τ c)).mp
    rw [← hτ]
    simp [(hσ c).mpr hc]
  · rw [hτ]
    exact laidOut_cyclePermutation hparts hsum

end LatinSquares.Math
