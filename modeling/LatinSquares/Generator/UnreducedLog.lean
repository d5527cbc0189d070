/-
# The unreduced logarithmic encoder

Without fixed bits, bit `b` of cell `(i, j)` of square `t` is a core variable whose
number can be read off its indices. The formula is satisfiable over an assignment
of the core variables exactly when they are the binary code of a family of Latin
squares any two of which show enough pairs; in particular no cell has a code that
is no symbol.
-/

import LatinSquares.Generator.LogEncoder
import Mathlib.Tactic.Ring

namespace LatinSquares.Generator

open LatinSquares.Math
open Expression (and)

/-- The variable of bit `bit` of cell `(i, j)` of square `t`, for cells of `b` bits. -/
def bitVariable (n b t i j bit : Nat) : Nat := t * n ^ 2 * b + i * n * b + j * b + bit + 1

/-- The core variables are the binary code of the family `F`. -/
def BinaryCode {n k : Nat} (α : Assignment) (F : Fin k → Square (Fin n)) : Prop :=
  ∀ (t : Fin k) (i j : Fin n),
    Nat.ofBits (fun bit : Fin (log2 n) => α (bitVariable n (log2 n) t i j bit)) = F t i j

namespace LogLatinSquareEncoder

variable {e : LogLatinSquareEncoder}

theorem byIndex_logKind (hreduced : e.reduced = false) :
    byIndex e.n e.n (log2 e.n) (logKind e.reduced) = fun _ => none := by
  funext idx
  rw [hreduced]
  rfl

theorem bit_unreduced (hreduced : e.reduced = false) (t i j bit : Nat) :
    e.bit t i j bit = .var (bitVariable e.n (log2 e.n) t i j bit) := by
  rw [LogLatinSquareEncoder.bit, layoutEntry, byIndex_logKind hreduced, numbered_none, bitVariable]
  congr 1
  ring

theorem coreSize_unreduced (hreduced : e.reduced = false) :
    e.coreSize = e.k * e.n ^ 2 * log2 e.n := by
  rw [coreSize, tablesSize, layoutSize, byIndex_logKind hreduced, variablesBefore_none]
  ring

theorem stores_iff_binaryCode (hreduced : e.reduced = false) {α : Assignment}
    {F : Fin e.k → Square (Fin e.n)} : e.Stores α F ↔ BinaryCode α F := by
  simp only [Stores, number, cellNumber, bit_unreduced hreduced, Literal.eval_var]
  rfl

/-- The code reads the core variables only. -/
theorem binaryCode_congr {n k : Nat} {α β : Assignment} {F : Fin k → Square (Fin n)}
    (h : ∀ v ∈ List.range' 1 (k * n ^ 2 * log2 n), β v = α v) :
    BinaryCode β F ↔ BinaryCode α F := by
  refine forall_congr' fun t => forall_congr' fun i => forall_congr' fun j => ?_
  have hbits : (fun bit : Fin (log2 n) => β (bitVariable n (log2 n) t i j bit)) =
      fun bit : Fin (log2 n) => α (bitVariable n (log2 n) t i j bit) := by
    funext bit
    have hindex := layout_index_lt t.isLt i.isLt j.isLt bit.isLt
    have hvariable : bitVariable n (log2 n) t i j bit =
        (t : Nat) * (n * n * log2 n) + ((i * n + j) * log2 n + bit) + 1 := by
      rw [bitVariable]
      ring
    have hsize : k * n ^ 2 * log2 n = k * (n * n * log2 n) := by ring
    rw [h]
    rw [List.mem_range'_1, hvariable, hsize]
    omega
  rw [hbits]

/-- Without reduction there is no symmetry breaking. -/
theorem ensures_symmetry_unreduced (hreduced : e.reduced = false) :
    Ensures (e.symmetry e.indicatorTables) e.indicatorState fun breaking s =>
      Builds e.indicatorState s [breaking] [] ∧
        Projects e.indicatorState.varCounter s.varCounter (fun α => breaking.eval α = true)
          fun _ => True := by
  rw [symmetry, hreduced]
  exact ensures_noBreaking _

/-- The formula of an unreduced encoder after `t` incremental expressions, over its
core variables. -/
theorem exists_cnf_unreduced (hreduced : e.reduced = false) (hn : 2 ≤ e.n) (hk : 2 ≤ e.k)
    (hq : e.q ≤ e.n * e.n) :
    ∃ f, e.cnf = some f ∧ f.coreVariables = List.range' 1 (e.k * e.n ^ 2 * log2 e.n) ∧
      f.incremental.length = (e.n * e.n - e.q) * (squarePairs e.k).length ∧
      ∀ t ≤ f.incremental.length, ∀ α,
        (∃ β, (∀ v ∈ f.coreVariables, β v = α v) ∧ f.Holds β ∧
            ∀ x ∈ f.incremental.take t, x.eval β = true) ↔
          ∃ F : Fin e.k → Square (Fin e.n), BinaryCode α F ∧
            LatinFamily (incrementalBound e.k e.q t) F := by
  obtain ⟨f, c, hf, hcore, hlength, hprojects⟩ := exists_cnf (P := fun _ => True) hn hk hq
    (ensures_symmetry_unreduced hreduced) fun _ _ _ _ => Iff.rfl
  refine ⟨f, hf, by rw [hcore, coreSize_unreduced hreduced], hlength, fun t ht α => ?_⟩
  rw [hcore, (hprojects t ht).holds_iff_of_range]
  · simp only [true_and, stores_iff_binaryCode hreduced]
  · intro α β hαβ
    rw [coreSize_unreduced hreduced] at hαβ
    simp only [stores_iff_binaryCode hreduced, binaryCode_congr hαβ]

/-- The formula is satisfiable exactly when there is a family. -/
theorem exists_family_iff (hreduced : e.reduced = false) (hn : 2 ≤ e.n) (hk : 2 ≤ e.k)
    (hq : e.q ≤ e.n * e.n) :
    ∃ f, e.cnf = some f ∧ ((∃ α, f.Holds α) ↔
      ∃ F : Fin e.k → Square (Fin e.n), LatinFamily (fun _ _ => e.q) F) := by
  obtain ⟨f, c, hf, -, -, hprojects⟩ := exists_cnf (P := fun _ => True) hn hk hq
    (ensures_symmetry_unreduced hreduced) fun _ _ _ _ => Iff.rfl
  have hsatisfiable := (hprojects 0 (Nat.zero_le _)).satisfiable_iff
  simp only [List.take_zero, List.not_mem_nil, false_imp_iff, implies_true, and_true, true_and,
    incrementalBound_zero] at hsatisfiable
  refine ⟨f, hf, hsatisfiable.trans ⟨?_, ?_⟩⟩
  · rintro ⟨-, F, -, hfamily⟩
    exact ⟨F, hfamily⟩
  · rintro ⟨F, hfamily⟩
    obtain ⟨α, hα⟩ := exists_stores (F := F) (by simp [logKind, hreduced])
    exact ⟨α, F, hα, hfamily⟩

/-- The formula of an unreduced logarithmic encoder is satisfiable over an assignment
of its core variables exactly when every cell holds a symbol in binary, the squares
are Latin and any two of them show at least `q` pairs. -/
theorem unreduced_log_cnf_iff {n k q : Nat} (hn : 2 ≤ n) (hk : 2 ≤ k) (hq : q ≤ n * n) :
    ∃ f, ({ reduced := false, n, k, q } : LogLatinSquareEncoder).cnf = some f ∧
      f.coreVariables = List.range' 1 (k * n ^ 2 * log2 n) ∧
      ∀ α, (∃ β, (∀ v ∈ f.coreVariables, β v = α v) ∧ f.Holds β) ↔
        ∃ F : Fin k → Square (Fin n), BinaryCode α F ∧ LatinFamily (fun _ _ => q) F := by
  obtain ⟨f, hf, hcore, -, hmeaning⟩ :=
    exists_cnf_unreduced (e := { reduced := false, n, k, q }) rfl hn hk hq
  refine ⟨f, hf, hcore, fun α => ?_⟩
  have hzero := hmeaning 0 (Nat.zero_le _) α
  simp only [List.take_zero, List.not_mem_nil, false_imp_iff, implies_true, and_true,
    incrementalBound_zero] at hzero
  exact hzero

/-- Two squares of order three, with a code that is no symbol. -/
theorem unreduced_log_cnf_iff_three :
    ∃ f, ({ reduced := false, n := 3, k := 2, q := 9 } : LogLatinSquareEncoder).cnf = some f ∧
      f.coreVariables = List.range' 1 (2 * 3 ^ 2 * log2 3) ∧
      ∀ α, (∃ β, (∀ v ∈ f.coreVariables, β v = α v) ∧ f.Holds β) ↔
        ∃ F : Fin 2 → Square (Fin 3), BinaryCode α F ∧ LatinFamily (fun _ _ => 9) F :=
  unreduced_log_cnf_iff (by decide) (by decide) (by decide)

end LogLatinSquareEncoder

end LatinSquares.Generator
