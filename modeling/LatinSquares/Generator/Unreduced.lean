/-
# The unreduced one-hot encoder

Without fixed cells the core variable of symbol `v` in cell `(i, j)` of square `t`
has a number that can be read off its indices. The formula is then satisfiable
over an assignment of the core variables exactly when it is the one-hot code of a
family of Latin squares any two of which show enough pairs.
-/

import LatinSquares.Generator.OneHotEncoder
import Mathlib.Tactic.Ring

namespace LatinSquares.Generator

open LatinSquares.Math
open Expression (and)

/-- The variable that says that cell `(i, j)` of square `t` has symbol `v`. -/
def oneHotVariable (n t i j v : Nat) : Nat := t * n ^ 3 + i * n ^ 2 + j * n + v + 1

/-- The core variables are the one-hot code of the family `F`. -/
def OneHotCode {n k : Nat} (α : Assignment) (F : Fin k → Square (Fin n)) : Prop :=
  ∀ (t : Fin k) (i j v : Fin n), α (oneHotVariable n t i j v) = true ↔ F t i j = v

namespace LatinSquareEncoder

variable {e : LatinSquareEncoder}

theorem byIndex_oneHotKind (hreduced : e.reduced = false) :
    byIndex e.n e.n e.n (oneHotKind e.reduced) = fun _ => none := by
  funext idx
  rw [hreduced]
  rfl

theorem entry_unreduced (hreduced : e.reduced = false) (t i j v : Nat) :
    e.entry t i j v = .var (oneHotVariable e.n t i j v) := by
  rw [entry, layoutEntry, byIndex_oneHotKind hreduced, numbered_none, oneHotVariable]
  congr 1
  ring

theorem coreSize_unreduced (hreduced : e.reduced = false) : e.coreSize = e.k * e.n ^ 3 := by
  rw [coreSize, layoutSize, byIndex_oneHotKind hreduced, variablesBefore_none]
  ring

theorem describes_iff_oneHotCode (hreduced : e.reduced = false) {α : Assignment}
    {F : Fin e.k → Square (Fin e.n)} : e.Describes α F ↔ OneHotCode α F := by
  simp only [Describes, OneHot, Shows, entry_unreduced hreduced, Literal.eval_var]
  rfl

/-- Without reduction there is no symmetry breaking. -/
theorem ensures_symmetry_unreduced (hreduced : e.reduced = false) :
    Ensures (e.symmetry e.tables) e.coreState fun breaking s =>
      Builds e.coreState s [breaking] [] ∧
        Projects e.coreSize s.varCounter (fun α => breaking.eval α = true) fun _ => True := by
  rw [symmetry, hreduced]
  exact ensures_noBreaking _

/-- Lines of variables are no `False`. -/
theorem isFalse_lines_unreduced (hreduced : e.reduced = false) (hn : 0 < e.n) :
    (and (e.tables.map latin)).isFalse = false := by
  rw [Expression.isFalse_and, List.any_eq_false, List.forall_mem_map]
  intro M hM
  obtain ⟨t, -, rfl⟩ := List.mem_map.mp hM
  rw [Bool.not_eq_true]
  exact isFalse_latin hn fun i _ j _ v _ => ⟨_, entry_unreduced hreduced t i j v⟩

/-- With every variable false no cell has a symbol. -/
theorem not_describes_unreduced (hreduced : e.reduced = false) (hn : 0 < e.n) (hk : 0 < e.k)
    (F : Fin e.k → Square (Fin e.n)) : ¬ e.Describes (fun _ => false) F := by
  intro hF
  have hcell := (hF ⟨0, hk⟩ ⟨0, hn⟩ ⟨0, hn⟩ _).mpr rfl
  rw [Shows, entry_unreduced hreduced] at hcell
  cases hcell

/-- The code reads the core variables only. -/
theorem oneHotCode_congr {n k : Nat} {α β : Assignment} {F : Fin k → Square (Fin n)}
    (h : ∀ v ∈ List.range' 1 (k * n ^ 3), β v = α v) : OneHotCode β F ↔ OneHotCode α F := by
  refine forall_congr' fun t => forall_congr' fun i => forall_congr' fun j =>
    forall_congr' fun v => ?_
  have hindex := layout_index_lt t.isLt i.isLt j.isLt v.isLt
  have hvariable : oneHotVariable n t i j v =
      (t : Nat) * (n * n * n) + ((i * n + j) * n + v) + 1 := by
    rw [oneHotVariable]
    ring
  have hsize : k * n ^ 3 = k * (n * n * n) := by ring
  rw [h]
  rw [List.mem_range'_1, hvariable, hsize]
  omega

/-- The formula of an unreduced encoder after `t` incremental expressions, over its
core variables. -/
theorem exists_cnf_unreduced (order : Order) (hreduced : e.reduced = false) (hn : 2 ≤ e.n)
    (hk : 2 ≤ e.k) (hq : e.q ≤ e.n * e.n) :
    ∃ f, e.cnf order = some f ∧ f.coreVariables = List.range' 1 (e.k * e.n ^ 3) ∧
      f.incremental.length = (e.n * e.n - e.q) * (squarePairs e.k).length ∧
      ∀ t ≤ f.incremental.length, ∀ α,
        (∃ β, (∀ v ∈ f.coreVariables, β v = α v) ∧ f.Holds β ∧
            ∀ x ∈ f.incremental.take t, x.eval β = true) ↔
          ∃ F : Fin e.k → Square (Fin e.n), OneHotCode α F ∧
            LatinFamily (incrementalBound e.k e.q t) F := by
  obtain ⟨f, c, hf, hcore, hlength, hprojects⟩ := exists_cnf (P := fun _ => True) order hn hk hq
    (isFalse_lines_unreduced hreduced (by omega))
    (not_describes_unreduced hreduced (by omega) (by omega))
    (ensures_symmetry_unreduced hreduced) fun _ _ _ _ => Iff.rfl
  refine ⟨f, hf, by rw [hcore, coreSize_unreduced hreduced], hlength, fun t ht α => ?_⟩
  rw [hcore, (hprojects t ht).holds_iff_of_range]
  · simp only [true_and, describes_iff_oneHotCode hreduced]
  · intro α β hαβ
    rw [coreSize_unreduced hreduced] at hαβ
    simp only [describes_iff_oneHotCode hreduced, oneHotCode_congr hαβ]

/-- The formula of an unreduced encoder is satisfiable over an assignment of its core
variables exactly when they are the code of a family of Latin squares any two of
which show at least `q` pairs. -/
theorem unreduced_cnf_iff (order : Order) (weighted : Bool) {n k q : Nat} (hn : 2 ≤ n)
    (hk : 2 ≤ k) (hq : q ≤ n * n) :
    ∃ f, ({ reduced := false, weighted, n, k, q } : LatinSquareEncoder).cnf order = some f ∧
      f.coreVariables = List.range' 1 (k * n ^ 3) ∧
      ∀ α, (∃ β, (∀ v ∈ f.coreVariables, β v = α v) ∧ f.Holds β) ↔
        ∃ F : Fin k → Square (Fin n), OneHotCode α F ∧ LatinFamily (fun _ _ => q) F := by
  obtain ⟨f, hf, hcore, -, hmeaning⟩ := exists_cnf_unreduced order
    (e := { reduced := false, weighted, n, k, q }) rfl hn hk hq
  refine ⟨f, hf, hcore, fun α => ?_⟩
  have hzero := hmeaning 0 (Nat.zero_le _) α
  simp only [List.take_zero, List.not_mem_nil, false_imp_iff, implies_true, and_true,
    incrementalBound_zero] at hzero
  exact hzero

/-- Two squares of order three that show all nine pairs. -/
theorem unreduced_cnf_iff_three :
    ∃ f, ({ reduced := false, n := 3, k := 2, q := 9 } : LatinSquareEncoder).cnf
        Order.identity = some f ∧
      f.coreVariables = List.range' 1 (2 * 3 ^ 3) ∧
      ∀ α, (∃ β, (∀ v ∈ f.coreVariables, β v = α v) ∧ f.Holds β) ↔
        ∃ F : Fin 2 → Square (Fin 3), OneHotCode α F ∧ LatinFamily (fun _ _ => 9) F :=
  unreduced_cnf_iff Order.identity false (by decide) (by decide) (by decide)

end LatinSquareEncoder

end LatinSquares.Generator
