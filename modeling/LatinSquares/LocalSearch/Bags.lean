/-
# The bags of a round

`nextArray`, `contains`, `next_combination` and `next_combination_including` of `utils/utils.cpp`,
and the loop of `solve` that lists the bags of a round if it tries all of them. The bags come in
the order of an odometer whose digits are the indices of the bag. The loop starts at the first
bag with an index of `vars`, and so none with such an index is passed over.
-/

import LatinSquares.LocalSearch.Neighbours
import LatinSquares.LocalSearch.Sampling
import LatinSquares.Math.Cursor
import LatinSquares.Math.Odometer
import Mathlib.Data.Finset.Powerset
import Mathlib.Data.Finset.Sort

namespace LatinSquares.LocalSearch

open LatinSquares.Math

/-- The loop of `next_combination` from index `i` on. No entry wraps, since the entries stay
below the next one, and below `n`. -/
def nextCombinationFrom (n : Nat) : Nat → Combination → Combination × Bool
  | _, [] => ([], false)
  | i, x :: rest =>
      let upper_bound := rest.headD n
      if x + 1 = upper_bound then
        let next := nextCombinationFrom n (i + 1) rest
        (i :: next.1, next.2)
      else ((x + 1) :: rest, true)

/-- `next_combination`: the combination it leaves, and the result. -/
def nextCombination (n : Nat) (combination : Combination) : Combination × Bool :=
  nextCombinationFrom n 0 combination

/-- `contains`; the cursor `i` is given by the entries of `including` from `i` on. -/
def contains : Combination → List Nat → Bool
  | [], _ => false
  | element :: combination, rest =>
      let rest := advance rest element
      if atCursor rest element then true else contains combination rest

/-- `next_combination_including`, with fuel for its rounds. -/
def nextCombinationIncluding (fuel n : Nat) (including : List Nat) (combination : Combination) :
    Option (Combination × Bool) :=
  nextWhere (nextCombination n) (fun c => contains c including) fuel combination

/-- `nextArray` from some index on; `indices` is as long as `array`. -/
def nextArray : List Nat → List (List Nat) → List Nat × Bool
  | [], _ => ([], false)
  | x :: array, indices =>
      if x + 1 = (indices.headD []).length then
        let next := nextArray array indices.tail
        (0 :: next.1, next.2)
      else ((x + 1) :: array, true)

/-- The first `tmpPermutationIndices`, given `vars_vec[0]`. -/
def firstBag (bagSize first : Nat) : Combination :=
  List.range (bagSize - 1) ++ [max first (bagSize - 1)]

/-- The bag has an index of `vars`. -/
def meets (vars_vec : List Nat) (bag : Combination) : Bool := bag.any (· ∈ vars_vec)

section Combinations

/-- The digits of a combination of indices below `n`: every entry stays below the next one. -/
def combinationDigits (n : Nat) : Odometer where
  low := id
  upper _ rest := rest.headD n

/-- The combinations of `k` indices below `n`, in the order of `next_combination`. -/
def combinations (n k : Nat) : List Combination := (combinationDigits n).readings 0 k

variable {n k i x first fuel : Nat} {c digits including vars_vec : List Nat}

theorem nextCombinationFrom_eq (n i : Nat) (c : Combination) :
    nextCombinationFrom n i c = (combinationDigits n).count i c := by
  induction c generalizing i with
  | nil => rfl
  | cons x rest ih =>
      rw [nextCombinationFrom, Odometer.count, ih]
      rfl

theorem within_combinationDigits : (combinationDigits n).Within i c ↔
    c.Pairwise (· < ·) ∧ ∀ x ∈ c, i ≤ x ∧ x < n := by
  induction c generalizing i with
  | nil => simp [Odometer.Within]
  | cons x rest ih =>
      rw [Odometer.Within, ih, List.pairwise_cons, List.forall_mem_cons]
      change i ≤ x ∧ x < rest.headD n ∧ _ ↔ _
      cases rest with
      | nil => simp
      | cons y rest =>
          rw [List.headD_cons]
          constructor
          · rintro ⟨hix, hxy, hrest, hbounds⟩
            have hhead : ∀ z ∈ y :: rest, x < z := List.forall_mem_cons.mpr
              ⟨hxy, fun z hz => hxy.trans ((List.pairwise_cons.mp hrest).1 z hz)⟩
            refine ⟨⟨hhead, hrest⟩, ⟨hix, ?_⟩, fun z hz => ⟨hix.trans (hhead z hz).le, ?_⟩⟩
            · exact hxy.trans (hbounds y List.mem_cons_self).2
            · exact (hbounds z hz).2
          · rintro ⟨⟨hhead, hrest⟩, ⟨hix, -⟩, hbounds⟩
            refine ⟨hix, hhead y List.mem_cons_self, hrest, fun z hz => ⟨?_, (hbounds z hz).2⟩⟩
            exact hix.trans_lt (hhead z hz)

theorem mem_combinations :
    c ∈ combinations n k ↔ c.length = k ∧ c.Pairwise (· < ·) ∧ ∀ x ∈ c, x < n := by
  rw [combinations, Odometer.mem_readings, within_combinationDigits]
  simp

theorem pairwise_combinations (n k : Nat) : (combinations n k).Pairwise Odometer.Below :=
  Odometer.pairwise_readings (combinationDigits n) 0 k

theorem turns_combinationDigits (hk : k ≤ n) : (combinationDigits n).Turns k := by
  intro i rest hlength hwithin
  change i < rest.headD n
  cases rest with
  | nil =>
      simp only [List.length_nil] at hlength
      simp only [List.headD_nil]
      omega
  | cons y rest => exact ((within_combinationDigits.mp hwithin).2 y List.mem_cons_self).1

/-- `contains` is right about ascending lists. -/
theorem contains_advance (hincluding : including.Pairwise (· < ·)) (hc : c.Pairwise (· < ·))
    {m : Nat} (hm : ∀ x ∈ c, m ≤ x) :
    contains c (advance including m) = meets including c := by
  induction c generalizing m with
  | nil => rfl
  | cons x c ih =>
      obtain ⟨hhead, htail⟩ := List.pairwise_cons.mp hc
      have hmx := hm x List.mem_cons_self
      have hrecord : x ∈ records including ↔ x ∈ including :=
        mem_records_of_sorted (hincluding.imp fun h => h.le)
      rw [contains, advance_advance_of_le hmx, atCursor_advance_self, decide_eq_decide.mpr hrecord,
        ih htail fun y hy => (hhead y hy).le, meets, meets, List.any_cons]
      cases decide (x ∈ including) <;> rfl

theorem contains_eq (hincluding : including.Pairwise (· < ·)) (hc : c.Pairwise (· < ·)) :
    contains c including = meets including c := by
  rw [← contains_advance hincluding hc fun x _ => Nat.zero_le x,
    advance_eq_self fun y _ => Nat.zero_le y]

/-- From a combination on, `next_combination` goes through those behind it. -/
theorem course_combinations (hk : k ≤ n) {before after : List Combination}
    (hsplit : combinations n k = before ++ c :: after) : Course (nextCombination n) c after := by
  have heq : nextCombination n = (combinationDigits n).count 0 :=
    funext fun c => nextCombinationFrom_eq n 0 c
  rw [heq]
  exact Odometer.course_of_readings (turns_combinationDigits hk) hsplit

theorem firstBag_eq (k first : Nat) :
    firstBag k first = (combinationDigits n).lows 0 (k - 1) ++ [max first (k - 1)] := by
  rw [firstBag, Odometer.lows, List.range_eq_range']
  exact congrArg (· ++ _) (List.map_id _).symm

theorem firstBag_mem (hpos : 1 ≤ k) (hk : k ≤ n) (hfirst : first < n) :
    firstBag k first ∈ combinations n k := by
  rw [mem_combinations, firstBag]
  refine ⟨by simp; omega, ?_, fun x hx => ?_⟩
  · refine List.pairwise_append.mpr ⟨List.pairwise_lt_range, List.pairwise_singleton _ _, ?_⟩
    intro x hx y hy
    have hx := List.mem_range.mp hx
    rw [List.mem_singleton.mp hy]
    exact hx.trans_le (le_max_right _ _)
  · cases List.mem_append.mp hx with
    | inl hx =>
        have hx := List.mem_range.mp hx
        omega
    | inr hx =>
        rw [List.mem_singleton.mp hx]
        exact max_lt hfirst (by omega)

theorem meets_firstBag (k : Nat) (hfirst : first ∈ vars_vec) :
    meets vars_vec (firstBag k first) = true := by
  refine List.any_eq_true.mpr ⟨first, ?_, decide_eq_true hfirst⟩
  rw [firstBag]
  by_cases hlt : first < k - 1
  · exact List.mem_append_left _ (List.mem_range.mpr hlt)
  · rw [max_eq_left (Nat.not_lt.mp hlt)]
    exact List.mem_append_right _ (List.mem_singleton_self _)

/-- No combination in front of the first bag has an index of `vars`. -/
theorem meets_eq_false_of_below (hpos : 1 ≤ k) (hfirst : ∀ v ∈ vars_vec, first ≤ v)
    (hc : c ∈ combinations n k) (hbelow : Odometer.Below c (firstBag k first)) :
    meets vars_vec c = false := by
  obtain ⟨hlength, hascending, hlt⟩ := mem_combinations.mp hc
  have hne : c ≠ [] := List.ne_nil_of_length_pos (by omega)
  obtain ⟨init, x, rfl⟩ : ∃ init x, c = init ++ [x] :=
    ⟨_, _, (List.dropLast_append_getLast hne).symm⟩
  have hinit : init.length = k - 1 := by
    rw [List.length_append, List.length_singleton] at hlength
    omega
  rw [firstBag_eq (n := n)] at hbelow
  have hx : x < max first (k - 1) :=
    Odometer.lt_of_below_lows hbelow (Odometer.mem_readings.mp hc).2 hinit
  have hle : ∀ y ∈ init ++ [x], y ≤ x := by
    intro y hy
    cases List.mem_append.mp hy with
    | inl hy =>
        exact ((List.pairwise_append.mp hascending).2.2 y hy x (List.mem_singleton_self x)).le
    | inr hy => exact (List.mem_singleton.mp hy).le
  -- all entries are below `k - 1` if one is an index of `vars`, but there are `k` of them
  refine List.any_eq_false.mpr fun y hy hmem => ?_
  have hy' := hfirst y (of_decide_eq_true hmem)
  have hsubset : init ++ [x] ⊆ List.range (k - 1) := by
    intro z hz
    have := hle z hz
    have := hle y hy
    exact List.mem_range.mpr (by omega)
  have hcount := (hascending.nodup.subperm hsubset).length_le
  rw [hlength, List.length_range] at hcount
  omega

/-- From the first bag on, `next_combination_including` goes through the combinations that have an
index of `vars`, in the order of `next_combination`. -/
theorem visits_including (hpos : 1 ≤ k) (hk : k ≤ n)
    (hvars : (first :: vars_vec).Pairwise (· < ·)) (hlt : first < n)
    (hfuel : (combinations n k).length ≤ fuel) :
    visits (nextCombinationIncluding fuel n (first :: vars_vec)) fuel (firstBag k first) =
      some ((combinations n k).filter (meets (first :: vars_vec))) := by
  have hfirst : ∀ v ∈ first :: vars_vec, first ≤ v := List.forall_mem_cons.mpr
    ⟨le_rfl, fun v hv => ((List.pairwise_cons.mp hvars).1 v hv).le⟩
  obtain ⟨before, after, hsplit⟩ := List.append_of_mem (firstBag_mem hpos hk hlt)
  have hcourse := course_combinations hk hsplit
  have hlength := congrArg List.length hsplit
  rw [List.length_append, List.length_cons] at hlength
  have hvisits : visits (nextCombinationIncluding fuel n (first :: vars_vec)) fuel
      (firstBag k first) =
        some (firstBag k first :: after.filter fun c => contains c (first :: vars_vec)) :=
    hcourse.visits_nextWhere (by omega) (by omega)
  have hbefore : before.filter (meets (first :: vars_vec)) = [] := by
    refine List.filter_eq_nil_iff.mpr fun c hc => ?_
    have hpairwise := pairwise_combinations n k
    rw [hsplit] at hpairwise
    have hbelow := (List.pairwise_append.mp hpairwise).2.2 c hc _ List.mem_cons_self
    have hin : c ∈ combinations n k := hsplit ▸ List.mem_append_left _ hc
    rw [meets_eq_false_of_below hpos hfirst hin hbelow]
    exact Bool.false_ne_true
  have hafter : after.filter (fun c => contains c (first :: vars_vec)) =
      after.filter (meets (first :: vars_vec)) := by
    refine List.filter_congr fun c hc => contains_eq hvars ?_
    have hin : c ∈ combinations n k := hsplit ▸ List.mem_append_right _ (List.mem_cons_of_mem _ hc)
    exact (mem_combinations.mp hin).2.1
  have hmeets : meets (first :: vars_vec) (firstBag k first) = true :=
    meets_firstBag k List.mem_cons_self
  rw [hvisits, hsplit, List.filter_append, hbefore, List.nil_append,
    List.filter_cons_of_pos hmeets, hafter]

/-- The combinations for which `p` holds, as sets. -/
theorem length_filter_combinations (n k : Nat) (p : Finset Nat → Bool) :
    ((combinations n k).filter fun c => p c.toFinset).length =
      (((Finset.range n).powersetCard k).filter fun A => p A = true).card := by
  have hnodup : ((combinations n k).filter fun c => p c.toFinset).Nodup :=
    ((pairwise_combinations n k).imp Odometer.Below.ne).filter _
  rw [← List.toFinset_card_of_nodup hnodup]
  refine Finset.card_nbij' List.toFinset (fun A => A.sort) ?_ ?_ ?_ ?_
  · intro c hc
    obtain ⟨hc, hp⟩ := List.mem_filter.mp (List.mem_toFinset.mp hc)
    obtain ⟨hlength, hascending, hlt⟩ := mem_combinations.mp hc
    refine Finset.mem_filter.mpr ⟨Finset.mem_powersetCard.mpr ⟨fun x hx => ?_, ?_⟩, hp⟩
    · exact Finset.mem_range.mpr (hlt x (List.mem_toFinset.mp hx))
    · rw [List.toFinset_card_of_nodup hascending.nodup, hlength]
  · intro A hA
    obtain ⟨hA, hp⟩ := Finset.mem_filter.mp hA
    obtain ⟨hsubset, hcard⟩ := Finset.mem_powersetCard.mp hA
    refine List.mem_toFinset.mpr (List.mem_filter.mpr ⟨mem_combinations.mpr ⟨?_, ?_, ?_⟩, ?_⟩)
    · rw [Finset.length_sort, hcard]
    · exact (Finset.sortedLT_sort A).pairwise
    · exact fun x hx => Finset.mem_range.mp (hsubset ((Finset.mem_sort _).mp hx))
    · rw [Finset.sort_toFinset]
      exact hp
  · intro c hc
    obtain ⟨hc, -⟩ := List.mem_filter.mp (List.mem_toFinset.mp hc)
    have hascending := (mem_combinations.mp hc).2.1
    exact (List.toFinset_sort (· ≤ ·) hascending.nodup).mpr (hascending.imp fun h => h.le)
  · intro A _
    exact Finset.sort_toFinset A (· ≤ ·)

theorem length_combinations (n k : Nat) : (combinations n k).length = n.choose k := by
  have hall := length_filter_combinations n k fun _ => true
  rwa [List.filter_true, Finset.filter_true_of_mem fun _ _ => rfl, Finset.card_powersetCard,
    Finset.card_range] at hall

/-- The combinations without an index of `vars` are those of the other indices. -/
theorem length_filter_meets (hvars : vars_vec.Pairwise (· < ·)) (hlt : ∀ v ∈ vars_vec, v < n) :
    ((combinations n k).filter (meets vars_vec)).length =
      n.choose k - (n - vars_vec.length).choose k := by
  have hothers : ((combinations n k).filter fun c => !meets vars_vec c).length =
      (n - vars_vec.length).choose k := by
    have hsubset : vars_vec.toFinset ⊆ Finset.range n := fun v hv =>
      Finset.mem_range.mpr (hlt v (List.mem_toFinset.mp hv))
    have hcard : (Finset.range n \ vars_vec.toFinset).card = n - vars_vec.length := by
      rw [Finset.card_sdiff_of_subset hsubset, Finset.card_range,
        List.toFinset_card_of_nodup hvars.nodup]
    have hsets : ((Finset.range n).powersetCard k).filter
        (fun A => decide (Disjoint A vars_vec.toFinset) = true) =
          (Finset.range n \ vars_vec.toFinset).powersetCard k := by
      ext A
      simp only [Finset.mem_filter, Finset.mem_powersetCard, decide_eq_true_eq,
        Finset.subset_sdiff]
      tauto
    rw [← hcard, ← Finset.card_powersetCard, ← hsets, ← length_filter_combinations]
    refine congrArg List.length (List.filter_congr fun c _ => ?_)
    rw [Bool.eq_iff_iff, Bool.not_eq_true', decide_eq_true_iff, meets, List.any_eq_false,
      Finset.disjoint_left]
    simp
  have hsplit := List.length_eq_length_filter_add (l := combinations n k) (meets vars_vec)
  rw [length_combinations, hothers] at hsplit
  omega

/-- `next_combination_including` enumerates: from the first bag on, it goes through all
combinations of `k` indices below `n` that have an index of `including`, and through each of them
once. -/
theorem exists_visits_including {including : List Nat} (hpos : 1 ≤ k) (hk : k ≤ n)
    (hincluding : including.Pairwise (· < ·)) (hhead : including.head? = some first)
    (hlt : ∀ v ∈ including, v < n) (hfuel : n.choose k ≤ fuel) :
    ∃ l, visits (nextCombinationIncluding fuel n including) fuel (firstBag k first) = some l ∧
      l.Nodup ∧ l.length = n.choose k - (n - including.length).choose k ∧
      ∀ c, c ∈ l ↔ c.length = k ∧ c.Pairwise (· < ·) ∧ (∀ x ∈ c, x < n) ∧
        ∃ x ∈ c, x ∈ including := by
  cases including with
  | nil => cases hhead
  | cons v rest =>
      obtain rfl := Option.some.inj hhead
      refine ⟨_, visits_including hpos hk hincluding (hlt v List.mem_cons_self)
        ((length_combinations n k).trans_le hfuel), ?_, length_filter_meets hincluding hlt, ?_⟩
      · exact ((pairwise_combinations n k).imp Odometer.Below.ne).filter _
      · intro c
        rw [List.mem_filter, mem_combinations, meets, List.any_eq_true]
        simp only [decide_eq_true_eq, and_assoc]

theorem exists_visits_including_four :
    ∃ l, visits (nextCombinationIncluding 6 4 [1, 3]) 6 (firstBag 2 1) = some l ∧
      l.Nodup ∧ l.length = Nat.choose 4 2 - Nat.choose (4 - 2) 2 ∧
      ∀ c, c ∈ l ↔ c.length = 2 ∧ c.Pairwise (· < ·) ∧ (∀ x ∈ c, x < 4) ∧
        ∃ x ∈ c, x ∈ [1, 3] :=
  exists_visits_including (by decide) (by decide) (by decide) rfl (by decide) (by decide)

end Combinations

end LatinSquares.LocalSearch
