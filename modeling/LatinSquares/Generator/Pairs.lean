/-
# The constraint on two squares

`orthogonalSquare` and `orthogonalLogSquare` choose between two ways of asking for
`q` pairs of symbols: forbidding repeated pairs when all `n * n` are wanted, and
counting the pairs that occur otherwise. On tables that describe Latin squares
both say that the squares show at least `q` pairs.
-/

import LatinSquares.Generator.Squares

namespace LatinSquares.Generator

open LatinSquares.Math
open Expression (and)

section Pair

variable {n q c d : Nat} {f g : Nat → Nat → Nat → Literal} {E : Nat → Nat → List Expression}
  {α : Assignment} {L M : Square (Fin n)} {st : GenState}

/-- What the constraint on two tables says after `c` tightenings; `E` gives the
positions at which the tables show two symbols. -/
def PairConstraint (n q : Nat) (E : Nat → Nat → List Expression)
    (f g : Nat → Nat → Nat → Literal) (c : Nat) (α : Assignment) : Prop :=
  if q = n * n then
    (fullyOrthogonalSquare (matrixOf n n n f) (matrixOf n n n g)).eval α = true
  else PairsShown n q E c α

/-- On tables of Latin squares the constraint bounds the number of pairs shown. -/
theorem pairConstraint_iff (hL : OneHot (Shows α f) L) (hM : OneHot (Shows α g) M)
    (hLatin : IsLatin L) (hc : c ≤ n * n - q) (hlength : ∀ aN bN, (E aN bN).length = n * n)
    (hE : ∀ a b : Fin n, (E (a + 1) (b + 1)).any (Expression.eval α) = true ↔
      ∃ i j, L i j = a ∧ M i j = b) :
    PairConstraint n q E f g c α ↔ q + (c - 1) ≤ pairCount L M := by
  rw [PairConstraint]
  split
  · next hq =>
      obtain rfl : c = 0 := by omega
      have hpairs := le_pairCount_iff_not_repeatsPair (M := M) hLatin
      rw [Fintype.card_fin] at hpairs
      rw [eval_fullyOrthogonalSquare hL hM, ← hpairs, hq]
      rfl
  · next hq =>
      rw [PairsShown, shownPairs, card_filter_eq_pairCount hE]
      constructor
      · exact fun h => h.2
      · refine fun h => ⟨fun aN _ bN _ heq => ?_, h⟩
        exact absurd (heq.trans (hlength aN bN)) hq

theorem fullyOrthogonalSquare_proper
    (hf : ∀ i < n, ∀ j < n, ∀ k < n, (f i j k).Within d)
    (hg : ∀ i < n, ∀ j < n, ∀ k < n, (g i j k).Within d) :
    (fullyOrthogonalSquare (matrixOf n n n f) (matrixOf n n n g)).Proper d := by
  refine Expression.proper_and fun e he => ?_
  obtain ⟨i1, i2, j1, j2, k1, k2, hi12, hi2, hj1, hj2, -, hk1, hk2, rfl⟩ :=
    mem_fullyOrthogonalSquare.mp he
  have hi1 : i1 < n := hi12.trans hi2
  apply Expression.proper_orLiterals
  simp only [List.mem_cons, List.not_mem_nil, or_false, forall_eq_or_imp, forall_eq,
    Literal.within_not]
  exact ⟨hf i1 hi1 j1 hj1 k1 hk1, hf i2 hi2 j2 hj2 k1 hk1, hg i1 hi1 j1 hj1 k2 hk2,
    hg i2 hi2 j2 hj2 k2 hk2⟩

theorem fullyOrthogonalSquare_ignoredHold :
    (fullyOrthogonalSquare (matrixOf n n n f) (matrixOf n n n g)).IgnoredHold α := by
  refine Expression.ignoredHold_and fun e he => ?_
  obtain ⟨i1, i2, j1, j2, k1, k2, -, -, -, -, -, -, -, rfl⟩ := mem_fullyOrthogonalSquare.mp he
  exact Expression.ignoredHold_orLiterals _

/-- Only four fixed symbols could make a clause the object `False`; outside the
first column the second table fixes none. -/
theorem isFalse_fullyOrthogonalSquare
    (hg : ∀ i < n, ∀ j < n, ∀ k < n, j ≠ 0 → g i j k ≠ .constTrue) :
    (fullyOrthogonalSquare (matrixOf n n n f) (matrixOf n n n g)).isFalse = false := by
  have hnot : ∀ {l : Literal}, l ≠ .constTrue → l.not ≠ .constFalse := by
    intro l hl
    cases l <;> simp_all [Literal.not]
  rw [fullyOrthogonalSquare, Expression.isFalse_and, List.any_eq_false]
  intro e he
  obtain ⟨i1, i2, j1, j2, k1, k2, hi12, hi2, hj1, hj2, hj12, -, hk2, rfl⟩ :=
    mem_fullyOrthogonalSquare.mp he
  rw [repeatClause, Bool.not_eq_true]
  by_cases hzero : j1 = 0
  · exact Expression.isFalse_orLiterals (l := (g i2 j2 k2).not) (by simp)
      (hnot (hg i2 hi2 j2 hj2 k2 hk2 (by omega)))
  · exact Expression.isFalse_orLiterals (l := (g i1 j1 k2).not) (by simp)
      (hnot (hg i1 (hi12.trans hi2) j1 hj1 k2 hk2 hzero))

/-- Where full orthogonality is asked for, nothing is introduced. -/
theorem tightens_fullyOrthogonalSquare (hq : q = n * n)
    (hf : ∀ i < n, ∀ j < n, ∀ k < n, (f i j k).Within st.varCounter)
    (hg : ∀ i < n, ∀ j < n, ∀ k < n, (g i j k).Within st.varCounter)
    (hnotFalse :
      (fullyOrthogonalSquare (matrixOf n n n f) (matrixOf n n n g)).isFalse = false) :
    Tightens st st { expr := fullyOrthogonalSquare (matrixOf n n n f) (matrixOf n n n g) }
      (n * n - q) (PairConstraint n q E f g) := by
  rw [hq, Nat.sub_self]
  refine Tightens.of_pure (fullyOrthogonalSquare_proper hf hg) hnotFalse
    (fun α => fullyOrthogonalSquare_ignoredHold) fun α => ?_
  rw [PairConstraint, if_pos rfl]

theorem pairConstraint_of_ne (hq : q ≠ n * n) : PairConstraint n q E f g = PairsShown n q E := by
  funext c α
  rw [PairConstraint, if_neg hq]

end Pair

section Rows

variable {size n q : Nat} {f g : Nat → Nat → Literal} {α : Assignment} {st : GenState}
  {a b : Fin size → Fin n}

theorem rowPositions_definable {c aN bN : Nat} (hf : ∀ p < size, ∀ k < n, (f p k).Within c)
    (hg : ∀ p < size, ∀ k < n, (g p k).Within c) :
    ∀ e ∈ rowPositions size n f g aN bN, e.Definable c := by
  intro e he
  obtain ⟨p, hp, rfl⟩ := List.mem_map.mp he
  have hp := List.mem_range.mp hp
  refine Expression.definable_and (fun e he => ?_) fun e he => ?_
  · rcases List.mem_pair.mp he with rfl | rfl
    · exact equal_proper (hf p hp)
    · exact equal_proper (hg p hp)
  · rcases List.mem_pair.mp he with rfl | rfl
    · exact equal_ofLiterals _ _
    · exact equal_ofLiterals _ _

/-- `orthogonal` on two rows of cells. -/
theorem ensures_orthogonal (order : Order) (hn : 2 ≤ n) (hq : q ≤ n * n) (hsize : 0 < size)
    (hf : ∀ p < size, ∀ k < n, (f p k).Within st.varCounter)
    (hg : ∀ p < size, ∀ k < n, (g p k).Within st.varCounter) :
    Ensures (orthogonal order ((List.range size).map fun p => (List.range n).map (f p))
      ((List.range size).map fun p => (List.range n).map (g p)) q) st fun r st' =>
        Tightens st st' r (n * n - q) (PairsShown n q (rowPositions size n f g)) := by
  have hsymbols : (((List.range size).map fun p => (List.range n).map (g p)).getD 0 []).length =
      n := by
    rw [getD_map_range _ _ hsize, List.length_map, List.length_range]
  rw [orthogonal, hsymbols]
  exact ensures_orthogonalBy isMark_markArgs_false order.perm hn hq
    (fun aN _ bN _ => by rw [equalExprs_rows]) fun _ _ _ _ => rowPositions_definable hf hg

end Rows

section OneHot

variable {n q : Nat} {f g : Nat → Nat → Nat → Literal} {α : Assignment}
  {L M : Square (Fin n)} {st : GenState}

/-- The positions at which two one-hot tables show the symbols numbered `aN` and `bN`. -/
def oneHotPositions (n : Nat) (f g : Nat → Nat → Nat → Literal) (aN bN : Nat) : List Expression :=
  equalExprs (matrixOf n n n f).flatten (matrixOf n n n g).flatten aN bN

theorem length_oneHotPositions (hn : 0 < n) (aN bN : Nat) :
    (oneHotPositions n f g aN bN).length = n * n := by
  rw [oneHotPositions, equalExprs_matrixOf hn, rowPositions, List.length_map, List.length_range]

theorem ensures_orthogonalSquare (order : Order) (hn : 2 ≤ n) (hq : q ≤ n * n)
    (hf : ∀ i < n, ∀ j < n, ∀ k < n, (f i j k).Within st.varCounter)
    (hg : ∀ i < n, ∀ j < n, ∀ k < n, (g i j k).Within st.varCounter)
    (hfixed : ∀ i < n, ∀ j < n, ∀ k < n, j ≠ 0 → g i j k ≠ .constTrue) :
    Ensures (orthogonalSquare order (matrixOf n n n f) (matrixOf n n n g) q) st fun r st' =>
      Tightens st st' r (n * n - q) (PairConstraint n q (oneHotPositions n f g) f g) := by
  have hlength : (matrixOf n n n f).length = n := by simp [matrixOf]
  rw [orthogonalSquare, hlength]
  by_cases hfull : q = n * n
  · rw [if_neg (by simpa using hfull)]
    exact Ensures.of_pure (tightens_fullyOrthogonalSquare hfull hf hg
      (isFalse_fullyOrthogonalSquare hfixed))
  · have hrow : ∀ p < n * n, p / n < n := fun p hp => Nat.div_lt_of_lt_mul hp
    have hcolumn : ∀ p, p % n < n := fun p => Nat.mod_lt p (by omega)
    have hpositions : oneHotPositions n f g = rowPositions (n * n) n
        (fun p => f (p / n) (p % n)) fun p => g (p / n) (p % n) := by
      funext aN bN
      rw [oneHotPositions, equalExprs_matrixOf (by omega)]
    rw [if_pos hfull, pairConstraint_of_ne hfull, flatten_matrixOf (by omega),
      flatten_matrixOf (by omega), hpositions]
    exact ensures_orthogonal order hn hq (Nat.mul_pos (by omega) (by omega))
      (fun p hp => hf _ (hrow p hp) _ (hcolumn p)) fun p hp => hg _ (hrow p hp) _ (hcolumn p)

/-- The one-hot constraint on two tables of Latin squares. -/
theorem pairConstraint_oneHot_iff (hn : 0 < n) {c : Nat} (hL : OneHot (Shows α f) L)
    (hM : OneHot (Shows α g) M) (hLatin : IsLatin L) (hc : c ≤ n * n - q) :
    PairConstraint n q (oneHotPositions n f g) f g c α ↔ q + (c - 1) ≤ pairCount L M :=
  pairConstraint_iff hL hM hLatin hc (length_oneHotPositions hn) (any_equalExprs hn hL hM)

end OneHot

section Indicators

variable {n q : Nat} {f g : Nat → Nat → Nat → Literal} {α : Assignment}
  {L M : Square (Fin n)} {st : GenState}

/-- The positions at which two tables of indicators show the symbols numbered `aN`
and `bN`. -/
def indicatorPositions (n : Nat) (f g : Nat → Nat → Nat → Literal) (aN bN : Nat) :
    List Expression :=
  (List.range (n * n)).map fun p =>
    and [.literal (f (p / n) (p % n) (aN - 1)), .literal (g (p / n) (p % n) (bN - 1))]

theorem length_indicatorPositions (aN bN : Nat) :
    (indicatorPositions n f g aN bN).length = n * n := by
  rw [indicatorPositions, List.length_map, List.length_range]

theorem indicatorPositions_definable (hn : 0 < n) {c aN bN : Nat}
    (haN : aN ∈ List.range' 1 n) (hbN : bN ∈ List.range' 1 n)
    (hf : ∀ i < n, ∀ j < n, ∀ k < n, (f i j k).Within c)
    (hg : ∀ i < n, ∀ j < n, ∀ k < n, (g i j k).Within c) :
    ∀ e ∈ indicatorPositions n f g aN bN, e.Definable c := by
  intro e he
  obtain ⟨p, hp, rfl⟩ := List.mem_map.mp he
  have hrow : p / n < n := Nat.div_lt_of_lt_mul (List.mem_range.mp hp)
  have hcolumn : p % n < n := Nat.mod_lt _ hn
  rw [List.mem_range'_1] at haN hbN
  refine Expression.definable_and (fun e he => ?_) fun e he => ?_
  · rcases List.mem_pair.mp he with rfl | rfl
    · exact Expression.proper_literal (hf _ hrow _ hcolumn _ (by omega))
    · exact Expression.proper_literal (hg _ hrow _ hcolumn _ (by omega))
  · rcases List.mem_pair.mp he with rfl | rfl
    · exact Expression.ofLiterals_literal _
    · exact Expression.ofLiterals_literal _

/-- In tables of indicators, some position has the two symbols exactly when the
squares show the pair. -/
theorem any_indicatorPositions (hn : 0 < n) (hL : OneHot (Shows α f) L)
    (hM : OneHot (Shows α g) M) (a b : Fin n) :
    (indicatorPositions n f g (a + 1) (b + 1)).any (Expression.eval α) = true ↔
      ∃ i j, L i j = a ∧ M i j = b := by
  rw [indicatorPositions, List.any_map, List.any_eq_true]
  simp only [List.mem_range, Function.comp_apply, Expression.eval_and, List.all_cons,
    List.all_nil, Bool.and_true, Bool.and_eq_true, Expression.eval_literal, Nat.add_sub_cancel]
  rw [exists_div_mod_iff (P := fun i j => (f i j a).eval α = true ∧ (g i j b).eval α = true) hn]
  constructor
  · rintro ⟨i, hi, j, hj, ha, hb⟩
    exact ⟨⟨i, hi⟩, ⟨j, hj⟩, (hL ⟨i, hi⟩ ⟨j, hj⟩ a).mp ha, (hM ⟨i, hi⟩ ⟨j, hj⟩ b).mp hb⟩
  · rintro ⟨i, j, ha, hb⟩
    exact ⟨i, i.isLt, j, j.isLt, (hL i j a).mpr ha, (hM i j b).mpr hb⟩

/-- The casts in `logOrthogonal` succeed on tables of variables. -/
theorem logEqualExprs_eq (hn : 0 < n) {aN bN : Nat} (haN : aN ∈ List.range' 1 n)
    (hbN : bN ∈ List.range' 1 n)
    (hf : ∀ i < n, ∀ j < n, ∀ k < n, ∃ v, f i j k = .var v)
    (hg : ∀ i < n, ∀ j < n, ∀ k < n, ∃ v, g i j k = .var v) :
    logEqualExprs (matrixOf n n n f).flatten (matrixOf n n n g).flatten aN bN =
      some (indicatorPositions n f g aN bN) := by
  rw [List.mem_range'_1] at haN hbN
  rw [flatten_matrixOf hn, flatten_matrixOf hn, logEqualExprs, List.length_map, List.length_range,
    indicatorPositions]
  have hpositions : ∀ ps : List Nat, (∀ p ∈ ps, p < n * n) →
      ps.mapM (fun p => Expression.asAnd
        (and [.literal ((((List.range (n * n)).map fun p =>
            (List.range n).map (f (p / n) (p % n))).getD p []).getD (aN - 1) default),
          .literal ((((List.range (n * n)).map fun p =>
            (List.range n).map (g (p / n) (p % n))).getD p []).getD (bN - 1) default)])) =
        some (ps.map fun p => and [.literal (f (p / n) (p % n) (aN - 1)),
          .literal (g (p / n) (p % n) (bN - 1))]) := by
    intro ps hps
    induction ps with
    | nil => rfl
    | cons p ps ih =>
        have hp := hps p (List.mem_cons_self ..)
        have hrow : p / n < n := Nat.div_lt_of_lt_mul hp
        have hcolumn : p % n < n := Nat.mod_lt _ hn
        obtain ⟨v, hv⟩ := hf _ hrow _ hcolumn (aN - 1) (by omega)
        obtain ⟨w, hw⟩ := hg _ hrow _ hcolumn (bN - 1) (by omega)
        rw [List.mapM_cons, ih fun p' hp' => hps p' (List.mem_cons_of_mem _ hp'),
          getD_map_range _ _ hp, getD_map_range _ _ hp, getD_map_range _ _ (by omega),
          getD_map_range _ _ (by omega), List.map_cons, hv, hw]
        rfl
  exact hpositions _ fun p hp => List.mem_range.mp hp

theorem ensures_orthogonalLogSquare (hn : 2 ≤ n) (hq : q ≤ n * n)
    (hf : ∀ i < n, ∀ j < n, ∀ k < n, ∃ v, f i j k = .var v ∧ 1 ≤ v ∧ v ≤ st.varCounter)
    (hg : ∀ i < n, ∀ j < n, ∀ k < n, ∃ v, g i j k = .var v ∧ 1 ≤ v ∧ v ≤ st.varCounter) :
    Ensures (orthogonalLogSquare (matrixOf n n n f) (matrixOf n n n g) q) st fun r st' =>
      Tightens st st' r (n * n - q) (PairConstraint n q (indicatorPositions n f g) f g) := by
  have hwithin : ∀ {h : Nat → Nat → Nat → Literal},
      (∀ i < n, ∀ j < n, ∀ k < n, ∃ v, h i j k = .var v ∧ 1 ≤ v ∧ v ≤ st.varCounter) →
      ∀ i < n, ∀ j < n, ∀ k < n, (h i j k).Within st.varCounter := by
    intro h hh i hi j hj k hk
    obtain ⟨v, hv, hscope⟩ := hh i hi j hj k hk
    rw [hv]
    exact Literal.within_var.mpr hscope
  have hvariable : ∀ {h : Nat → Nat → Nat → Literal},
      (∀ i < n, ∀ j < n, ∀ k < n, ∃ v, h i j k = .var v ∧ 1 ≤ v ∧ v ≤ st.varCounter) →
      ∀ i < n, ∀ j < n, ∀ k < n, ∃ v, h i j k = .var v := by
    intro h hh i hi j hj k hk
    obtain ⟨v, hv, -⟩ := hh i hi j hj k hk
    exact ⟨v, hv⟩
  have hlength : (matrixOf n n n f).length = n := by simp [matrixOf]
  rw [orthogonalLogSquare, hlength]
  by_cases hfull : q = n * n
  · rw [if_neg (by simpa using hfull)]
    refine Ensures.of_pure (tightens_fullyOrthogonalSquare hfull (hwithin hf) (hwithin hg)
      (isFalse_fullyOrthogonalSquare fun i hi j hj k hk _ => ?_))
    obtain ⟨v, hv⟩ := hvariable hg i hi j hj k hk
    simp [hv]
  · rw [if_pos hfull, pairConstraint_of_ne hfull, logOrthogonal]
    have hsymbols : ((matrixOf n n n g).flatten.getD 0 []).length = n := by
      rw [flatten_matrixOf (by omega), getD_map_range _ _ (Nat.mul_pos (by omega) (by omega)),
        List.length_map, List.length_range]
    rw [hsymbols]
    exact ensures_orthogonalBy isMark_id (fun _ vars => List.Perm.refl vars) hn hq
      (fun _ haN _ hbN => logEqualExprs_eq (by omega) haN hbN (hvariable hf) (hvariable hg))
      fun _ haN _ hbN => indicatorPositions_definable (by omega) haN hbN (hwithin hf) (hwithin hg)

/-- The constraint on two tables of indicators of Latin squares. -/
theorem pairConstraint_indicator_iff (hn : 0 < n) {c : Nat} (hL : OneHot (Shows α f) L)
    (hM : OneHot (Shows α g) M) (hLatin : IsLatin L) (hc : c ≤ n * n - q) :
    PairConstraint n q (indicatorPositions n f g) f g c α ↔ q + (c - 1) ≤ pairCount L M :=
  pairConstraint_iff hL hM hLatin hc length_indicatorPositions (any_indicatorPositions hn hL hM)

end Indicators

end LatinSquares.Generator
