/-
# The reduced logarithmic encoder

The reduced encoder fixes the first row and column of the first square and the
first column of the others, and asks for the second row of the first square to run
along a cycle. Every family has an isotope of this form, and isotopes show the same
numbers of pairs, so the reduced formula is satisfiable whenever the unreduced one
is.
-/

import LatinSquares.Generator.Cycles
import LatinSquares.Generator.UnreducedLog
import LatinSquares.Math.CanonicalForm

namespace LatinSquares.Generator

open LatinSquares.Math
open Expression (and)

namespace LogLatinSquareEncoder

variable {e : LogLatinSquareEncoder}

/-- The symmetry breaking of a reduced encoder. -/
theorem ensures_symmetry_reduced (hreduced : e.reduced = true) (hn : 2 ≤ e.n) (hk : 0 < e.k) :
    Ensures (e.symmetry e.indicatorTables) e.indicatorState fun breaking s =>
      Builds e.indicatorState s [breaking] [] ∧
        Projects e.indicatorState.varCounter s.varCounter (fun α => breaking.eval α = true)
          (AlongCycle e.n (fun j v => .var (e.indicator 0 1 j v)) 0 (-1)) := by
  have hsquare : e.indicatorTables[0]? = some (e.indicatorTable 0) := by
    simp [indicatorTables, hk]
  have hrow : (e.indicatorTable 0)[1]? =
      some (rowOf e.n fun j v => .var (e.indicator 0 1 j v)) := by
    have hone : 1 < e.n := hn
    simp [indicatorTable, matrixOf, rowOf, hone]
  rw [symmetry, if_pos hreduced]
  refine (Ensures.of_lift (Q := fun a t => a = e.indicatorTable 0 ∧ t = e.indicatorState) hsquare
    ⟨rfl, rfl⟩).bind ?_
  rintro square t ⟨rfl, rfl⟩
  refine (Ensures.of_lift (Q := fun a t => a = rowOf e.n (fun j v => .var (e.indicator 0 1 j v)) ∧
    t = e.indicatorState) hrow ⟨rfl, rfl⟩).bind ?_
  rintro row t ⟨rfl, rfl⟩
  exact ensures_breakingSymmetry (by omega) (Or.inl rfl)
    fun j hj v hv => Literal.within_var.mpr (indicator_scope hk (by omega) hj hv)

/-- The bits of a reduced encoder can store every family in standard form. -/
theorem exists_stores_standard (hreduced : e.reduced = true) (hn : 0 < e.n) (hk : 0 < e.k)
    {F : Fin e.k → Square (Fin e.n)} (hF : Standard ⟨0, hn⟩ ⟨0, hk⟩ F) : ∃ α, e.Stores α F := by
  refine exists_stores fun t i j bit b hb => ?_
  have hbit : ∀ c : Nat, decide ((c >>> bit) % 2 = 1) = c.testBit bit := fun c => by
    rw [Nat.testBit_eq_decide_div_mod_eq, ← Nat.shiftRight_eq_div_pow]
  have hrow : (t : Nat) = 0 → (i : Nat) = 0 → F t i j = j := by
    intro ht hi
    obtain rfl : t = ⟨0, hk⟩ := Fin.ext ht
    obtain rfl : i = ⟨0, hn⟩ := Fin.ext hi
    exact hF.row j
  have hcolumn : (j : Nat) = 0 → F t i j = i := by
    intro hj
    obtain rfl : j = ⟨0, hn⟩ := Fin.ext hj
    exact hF.column t i
  simp only [logKind, hreduced, if_true, hbit] at hb
  split_ifs at hb with ht hi hj hj
  · rw [hrow ht hi]
    simpa using hb
  · rw [hcolumn hj]
    simpa using hb
  · rw [hcolumn hj]
    simpa using hb

/-- The reduced formula is satisfiable exactly when there is a family at all. -/
theorem exists_cnf_reduced (hreduced : e.reduced = true) (hn : 2 ≤ e.n) (hk : 2 ≤ e.k)
    (hq : e.q ≤ e.n * e.n) :
    ∃ f, e.cnf = some f ∧ ((∃ α, f.Holds α) ↔
      ∃ F : Fin e.k → Square (Fin e.n), LatinFamily (fun _ _ => e.q) F) := by
  let lead : Fin e.k := ⟨0, by omega⟩
  let second : Fin e.n := ⟨1, by omega⟩
  obtain ⟨f, c, hf, -, -, hprojects⟩ := exists_cnf (P := fun F => RowAlong (F lead second) 0 (-1))
    hn hk hq (ensures_symmetry_reduced hreduced hn (by omega))
    fun α F hF _ => alongCycle_iff (by omega) (hF lead second)
  have hsatisfiable := (hprojects 0 (Nat.zero_le _)).satisfiable_iff
  simp only [List.take_zero, List.not_mem_nil, false_imp_iff, implies_true, and_true,
    incrementalBound_zero] at hsatisfiable
  refine ⟨f, hf, hsatisfiable.trans ⟨?_, ?_⟩⟩
  · rintro ⟨-, F, -, -, hfamily⟩
    exact ⟨F, hfamily⟩
  · rintro ⟨F, hfamily⟩
    obtain ⟨ρ, χ, σ, hstandard, hrow⟩ := exists_standard_second_row hn hfamily.latin lead
    obtain ⟨α, hα⟩ := exists_stores_standard hreduced (by omega) (by omega) hstandard
    exact ⟨α, _, hα, rowAlong_all_iff.mpr hrow, hfamily.isotope ρ χ σ⟩

/-- Reducing the formula keeps it satisfiable. -/
theorem reduced_satisfiable_iff {n k q : Nat} (hn : 2 ≤ n) (hk : 2 ≤ k) (hq : q ≤ n * n) :
    ∃ f g, ({ reduced := true, n, k, q } : LogLatinSquareEncoder).cnf = some f ∧
      ({ reduced := false, n, k, q } : LogLatinSquareEncoder).cnf = some g ∧
      ((∃ α, f.Holds α) ↔ ∃ α, g.Holds α) := by
  obtain ⟨f, hf, hreduced⟩ :=
    exists_cnf_reduced (e := { reduced := true, n, k, q }) rfl hn hk hq
  obtain ⟨g, hg, hunreduced⟩ :=
    exists_family_iff (e := { reduced := false, n, k, q }) rfl hn hk hq
  exact ⟨f, g, hf, hg, hreduced.trans hunreduced.symm⟩

/-- Two squares of order three that show at least seven pairs. -/
theorem reduced_satisfiable_iff_three :
    ∃ f g, ({ reduced := true, n := 3, k := 2, q := 7 } : LogLatinSquareEncoder).cnf = some f ∧
      ({ reduced := false, n := 3, k := 2, q := 7 } : LogLatinSquareEncoder).cnf = some g ∧
      ((∃ α, f.Holds α) ↔ ∃ α, g.Holds α) :=
  reduced_satisfiable_iff (by decide) (by decide) (by decide)

end LogLatinSquareEncoder

end LatinSquares.Generator
