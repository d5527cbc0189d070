/-
# Sequential counters

A sequential counter over marks `b 0, ..., b (m - 1)` has a bit `s i j` for every
row `i` below `m - 1` and column `j < k`. Its rules only push bits upwards: if
more than `j` of the marks `b 0, ..., b i` are set then `s i j` is set. A rule
forbids a further mark once column `k - 1` is set, so at most `k` marks are set.

Nothing forces a bit to be unset, and an assignment of the bits is therefore not
determined by the marks; the canonical one sets exactly the bits the rules
demand. `Tightened` is a condition on the last row that lowers the bound.
-/

import Mathlib.Data.List.GetD
import Mathlib.Data.Nat.Count

namespace LatinSquares.Math

/-- The rules of a counter for at most `k` of `m` marks. -/
structure IsCounter (m k : Nat) (b : Nat → Bool) (s : Nat → Nat → Bool) : Prop where
  first : b 0 → s 0 0
  firstUnset : ∀ j, 1 ≤ j → j < k → s 0 j = false
  start : ∀ i, 1 ≤ i → i < m - 1 → b i → s i 0
  keepStart : ∀ i, 1 ≤ i → i < m - 1 → s (i - 1) 0 → s i 0
  count : ∀ i, 1 ≤ i → i < m - 1 → ∀ j, 1 ≤ j → j < k → b i → s (i - 1) (j - 1) → s i j
  keep : ∀ i, 1 ≤ i → i < m - 1 → ∀ j, 1 ≤ j → j < k → s (i - 1) j → s i j
  stop : ∀ i, 1 ≤ i → i < m - 1 → b i → s (i - 1) (k - 1) = false
  stopLast : b (m - 1) → s (m - 2) (k - 1) = false

/-- The condition on the last row that leaves room for `k - r` marks. -/
def Tightened (m k r : Nat) (b : Nat → Bool) (s : Nat → Nat → Bool) : Prop :=
  (b (m - 1) → s (m - 2) (k - 1 - r) = false) ∧ (0 < r → s (m - 2) (k - r) = false)

/-- Only the marks and bits in range matter. -/
theorem IsCounter.congr {m k : Nat} {b b' : Nat → Bool} {s s' : Nat → Nat → Bool} (hm : 2 ≤ m)
    (hk : 0 < k) (hb : ∀ i < m, b i = b' i) (hs : ∀ i < m - 1, ∀ j < k, s i j = s' i j)
    (h : IsCounter m k b s) : IsCounter m k b' s' where
  first := by
    rw [← hb 0 (by omega), ← hs 0 (by omega) 0 hk]
    exact h.first
  firstUnset j h1 hj := by
    rw [← hs 0 (by omega) j hj]
    exact h.firstUnset j h1 hj
  start i h1 hi := by
    rw [← hb i (by omega), ← hs i hi 0 hk]
    exact h.start i h1 hi
  keepStart i h1 hi := by
    rw [← hs (i - 1) (by omega) 0 hk, ← hs i hi 0 hk]
    exact h.keepStart i h1 hi
  count i h1 hi j h1j hj := by
    rw [← hb i (by omega), ← hs (i - 1) (by omega) (j - 1) (by omega), ← hs i hi j hj]
    exact h.count i h1 hi j h1j hj
  keep i h1 hi j h1j hj := by
    rw [← hs (i - 1) (by omega) j hj, ← hs i hi j hj]
    exact h.keep i h1 hi j h1j hj
  stop i h1 hi := by
    rw [← hb i (by omega), ← hs (i - 1) (by omega) (k - 1) (by omega)]
    exact h.stop i h1 hi
  stopLast := by
    rw [← hb (m - 1) (by omega), ← hs (m - 2) (by omega) (k - 1) (by omega)]
    exact h.stopLast

theorem Tightened.congr {m k r : Nat} {b b' : Nat → Bool} {s s' : Nat → Nat → Bool}
    (hm : 2 ≤ m) (hr : r < k) (hb : ∀ i < m, b i = b' i)
    (hs : ∀ i < m - 1, ∀ j < k, s i j = s' i j) (h : Tightened m k r b s) :
    Tightened m k r b' s' := by
  constructor
  · rw [← hb (m - 1) (by omega), ← hs (m - 2) (by omega) (k - 1 - r) (by omega)]
    exact h.1
  · intro hpos
    rw [← hs (m - 2) (by omega) (k - r) (by omega)]
    exact h.2 hpos

/-- The bits the rules demand and no others. -/
def countingBits (b : Nat → Bool) (i j : Nat) : Bool :=
  j < Nat.count (fun i => b i) (i + 1)

section Counting

variable {m k r : Nat} {b : Nat → Bool} {s : Nat → Nat → Bool}

theorem count_succ_of_set {i : Nat} (h : b i) :
    Nat.count (fun i => b i) (i + 1) = Nat.count (fun i => b i) i + 1 := by
  rw [Nat.count_succ, if_pos h]

theorem count_succ_of_unset {i : Nat} (h : ¬ b i) :
    Nat.count (fun i => b i) (i + 1) = Nat.count (fun i => b i) i := by
  rw [Nat.count_succ, if_neg h, Nat.add_zero]

theorem count_succ_le (b : Nat → Bool) (i : Nat) :
    Nat.count (fun i => b i) (i + 1) ≤ Nat.count (fun i => b i) i + 1 := by
  rw [Nat.count_succ]
  split <;> omega

/-- Bit `j` of a row is set once more than `j` marks have been seen. -/
theorem IsCounter.bit_of_lt_count (h : IsCounter m k b s) (i : Nat) (hi : i < m - 1)
    (j : Nat) (hj : j < k) (hcount : j < Nat.count (fun i => b i) (i + 1)) : s i j := by
  induction i generalizing j with
  | zero =>
      have hle := count_succ_le b 0
      rw [Nat.count_zero] at hle
      have hj0 : j = 0 := by omega
      subst hj0
      by_cases hb : b 0
      · exact h.first hb
      · rw [count_succ_of_unset hb, Nat.count_zero] at hcount
        omega
  | succ i ih =>
      have hrow : i < m - 1 := by omega
      by_cases hbefore : j < Nat.count (fun i => b i) (i + 1)
      · -- the bit was set one row earlier and is kept
        have hprev := ih hrow j hj hbefore
        rcases Nat.eq_zero_or_pos j with rfl | hpos
        · exact h.keepStart (i + 1) (by omega) hi hprev
        · exact h.keep (i + 1) (by omega) hi j hpos hj hprev
      · have hb : b (i + 1) := by
          by_contra hb
          rw [count_succ_of_unset hb] at hcount
          exact hbefore hcount
        rw [count_succ_of_set hb] at hcount
        rcases Nat.eq_zero_or_pos j with rfl | hpos
        · exact h.start (i + 1) (by omega) hi hb
        · have hprev := ih hrow (j - 1) (by omega) (by omega)
          exact h.count (i + 1) (by omega) hi j hpos hj hb hprev

/-- A counter admits at most `k` marks. -/
theorem IsCounter.count_le (h : IsCounter m k b s) (hk : 0 < k) :
    Nat.count (fun i => b i) m ≤ k := by
  have hlead : ∀ i, i ≤ m → Nat.count (fun i => b i) i ≤ k := by
    intro i
    induction i with
    | zero => simp
    | succ i ih =>
        intro hi
        have hbefore := ih (by omega)
        by_cases hb : b i
        · rw [count_succ_of_set hb]
          by_contra hover
          have hfull : Nat.count (fun i => b i) i = k := by omega
          have hpos : 1 ≤ i := by
            by_contra hzero
            have hzero : i = 0 := by omega
            rw [hzero, Nat.count_zero] at hfull
            omega
          have hbit : s (i - 1) (k - 1) := by
            apply h.bit_of_lt_count (i - 1) (by omega) (k - 1) (by omega)
            rw [Nat.sub_add_cancel hpos]
            omega
          -- the mark that would exceed `k` meets a stop rule
          by_cases hlast : i < m - 1
          · simp [h.stop i hpos hlast hb] at hbit
          · have hi' : i = m - 1 := by omega
            subst hi'
            have hstop := h.stopLast hb
            rw [Nat.sub_sub] at hbit
            simp [hstop] at hbit
        · rw [count_succ_of_unset hb]
          exact hbefore
  exact hlead m le_rfl

/-- The tightened last row admits `r` marks fewer. -/
theorem IsCounter.count_le_of_tightened (h : IsCounter m k b s) (hm : 2 ≤ m) (hr : r < k)
    (ht : Tightened m k r b s) : Nat.count (fun i => b i) m ≤ k - r := by
  rcases Nat.eq_zero_or_pos r with rfl | hpos
  · simpa using h.count_le (by omega)
  · have hrow : m - 2 + 1 = m - 1 := by omega
    have hbefore : Nat.count (fun i => b i) (m - 1) ≤ k - r := by
      by_contra hover
      have hbit := h.bit_of_lt_count (m - 2) (by omega) (k - r) (by omega)
        (by rw [hrow]; omega)
      simp [ht.2 hpos] at hbit
    have hsplit : m - 1 + 1 = m := by omega
    by_cases hb : b (m - 1)
    · have hstrict : Nat.count (fun i => b i) (m - 1) ≤ k - 1 - r := by
        by_contra hover
        have hbit := h.bit_of_lt_count (m - 2) (by omega) (k - 1 - r) (by omega)
          (by rw [hrow]; omega)
        simp [ht.1 hb] at hbit
      have hcount := count_succ_of_set hb
      rw [hsplit] at hcount
      omega
    · have hcount := count_succ_of_unset hb
      rw [hsplit] at hcount
      omega

theorem countingBits_eq_true {i j : Nat} :
    countingBits b i j = true ↔ j < Nat.count (fun i => b i) (i + 1) := by
  simp [countingBits]

theorem countingBits_eq_false {i j : Nat} :
    countingBits b i j = false ↔ Nat.count (fun i => b i) (i + 1) ≤ j := by
  simp [countingBits]

/-- With at most `k` marks, the canonical bits obey the rules. -/
theorem isCounter_countingBits (hm : 2 ≤ m) (hk : 0 < k)
    (hcount : Nat.count (fun i => b i) m ≤ k) : IsCounter m k b (countingBits b) := by
  have hrow : ∀ i, i < m → b i → Nat.count (fun i => b i) i + 1 ≤ k := by
    intro i hi hb
    rw [← count_succ_of_set hb]
    exact (Nat.count_monotone _ (by omega)).trans hcount
  have hpred : ∀ i, 1 ≤ i → i - 1 + 1 = i := fun i hi => Nat.sub_add_cancel hi
  refine
    { first := fun hb => ?_, firstUnset := fun j hj _ => ?_, start := fun i hi _ hb => ?_,
      keepStart := fun i hi _ => ?_, count := fun i hi _ j hj _ hb => ?_,
      keep := fun i hi _ j _ _ => ?_, stop := fun i hi hlt hb => ?_, stopLast := fun hb => ?_ }
  · rw [countingBits_eq_true, count_succ_of_set hb]
    omega
  · rw [countingBits_eq_false]
    have hle := count_succ_le b 0
    rw [Nat.count_zero] at hle
    omega
  · rw [countingBits_eq_true, count_succ_of_set hb]
    omega
  · rw [countingBits_eq_true, countingBits_eq_true, hpred i hi]
    exact fun hlt => hlt.trans_le (Nat.count_monotone _ (Nat.le_succ i))
  · rw [countingBits_eq_true, countingBits_eq_true, hpred i hi, count_succ_of_set hb]
    omega
  · rw [countingBits_eq_true, countingBits_eq_true, hpred i hi]
    exact fun hlt => hlt.trans_le (Nat.count_monotone _ (Nat.le_succ i))
  · rw [countingBits_eq_false, hpred i hi]
    have hroom := hrow i (by omega) hb
    omega
  · rw [countingBits_eq_false]
    have hroom := hrow (m - 1) (by omega) hb
    have hsplit : m - 2 + 1 = m - 1 := by omega
    rw [hsplit]
    omega

/-- With at most `k - r` marks, the canonical bits are tightened by `r`. -/
theorem tightened_countingBits (hm : 2 ≤ m) (hr : r < k)
    (hcount : Nat.count (fun i => b i) m ≤ k - r) : Tightened m k r b (countingBits b) := by
  have hrow : m - 2 + 1 = m - 1 := by omega
  have hsplit : m - 1 + 1 = m := by omega
  constructor
  · intro hb
    have hset := count_succ_of_set hb
    rw [hsplit] at hset
    rw [countingBits_eq_false, hrow]
    omega
  · intro _
    rw [countingBits_eq_false, hrow]
    exact (Nat.count_monotone _ (Nat.sub_le m 1)).trans hcount

/-- The first `c` tightenings of a counter together leave room for `k - (c - 1)`
marks, and can be met whenever there are no more. -/
theorem exists_isCounter_iff (hm : 2 ≤ m) (hk : 0 < k) {c : Nat} (hc : c ≤ k) :
    (∃ s, IsCounter m k b s ∧ ∀ r < c, Tightened m k r b s) ↔
      Nat.count (fun i => b i) m ≤ k - (c - 1) := by
  constructor
  · rintro ⟨s, hs, ht⟩
    rcases Nat.eq_zero_or_pos c with rfl | hpos
    · simpa using hs.count_le hk
    · exact hs.count_le_of_tightened hm (by omega) (ht (c - 1) (by omega))
  · intro hcount
    exact ⟨countingBits b, isCounter_countingBits hm hk (by omega),
      fun r hr => tightened_countingBits hm (by omega) (by omega)⟩

end Counting

/-- Counting marked positions of a list is counting marked elements. -/
theorem count_getD_eq_countP {α : Type*} (p : α → Bool) (l : List α) (d : α) :
    Nat.count (fun i => p (l.getD i d)) l.length = l.countP p := by
  induction l using List.reverseRecOn with
  | nil => simp
  | append_singleton l x ih =>
      have hlead : Nat.count (fun i => p ((l ++ [x]).getD i d)) l.length =
          Nat.count (fun i => p (l.getD i d)) l.length := by
        rw [Nat.count_eq_card_filter_range, Nat.count_eq_card_filter_range]
        congr 1
        apply Finset.filter_congr
        intro i hi
        rw [List.getD_append _ _ _ _ (Finset.mem_range.mp hi)]
      rw [List.length_append, List.length_singleton, Nat.count_succ, hlead, ih,
        List.countP_append, List.countP_singleton]
      simp

end LatinSquares.Math
