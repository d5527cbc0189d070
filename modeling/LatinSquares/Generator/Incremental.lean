/-
# Incremental tightening

The driver of the incremental search adds the expressions of `CNF.incremental` one
after the other. They are the tightenings of the pairs of squares, dealt to the
pairs in turn, so after `t` of them the bound on the pair with index `p` has been
raised by one less than the number of `p`'s expressions among them.
-/

import LatinSquares.Generator.Unreduced
import LatinSquares.Generator.UnreducedLog

namespace LatinSquares.Generator

open LatinSquares.Math

/-- The position of the pair of squares `a` and `b` in the encoders' loop. -/
def pairIndex {k : Nat} (a b : Fin k) : Nat := (squarePairs k).idxOf ((a : Nat), (b : Nat))

/-- How many of the first `t` incremental expressions belong to the pair. -/
def tightenings {k : Nat} (t : Nat) (a b : Fin k) : Nat :=
  Nat.count (fun s => s % (k * (k - 1) / 2) = pairIndex a b) t

theorem incrementalBound_eq (k q t : Nat) :
    incrementalBound k q t = fun a b : Fin k => q + (tightenings t a b - 1) := by
  funext a b
  rw [incrementalBound, dealt, tightenings, pairIndex, length_squarePairs]

/-- What the formulas of the unreduced encoders say after `t` incremental expressions. -/
theorem incremental_cnf_iff (order : Order) (weighted : Bool) {n k q : Nat} (hn : 2 ≤ n)
    (hk : 2 ≤ k) (hq : q < n * n) :
    (∃ f, ({ reduced := false, weighted, n, k, q } : LatinSquareEncoder).cnf order = some f ∧
      f.coreVariables = List.range' 1 (k * n ^ 3) ∧
      f.incremental.length = (n * n - q) * (k * (k - 1) / 2) ∧
      ∀ t ≤ f.incremental.length, ∀ α,
        (∃ β, (∀ v ∈ f.coreVariables, β v = α v) ∧ f.Holds β ∧
            ∀ x ∈ f.incremental.take t, x.eval β = true) ↔
          ∃ F : Fin k → Square (Fin n), OneHotCode α F ∧
            LatinFamily (fun a b => q + (tightenings t a b - 1)) F) ∧
    (∃ f, ({ reduced := false, n, k, q } : LogLatinSquareEncoder).cnf = some f ∧
      f.coreVariables = List.range' 1 (k * n ^ 2 * log2 n) ∧
      f.incremental.length = (n * n - q) * (k * (k - 1) / 2) ∧
      ∀ t ≤ f.incremental.length, ∀ α,
        (∃ β, (∀ v ∈ f.coreVariables, β v = α v) ∧ f.Holds β ∧
            ∀ x ∈ f.incremental.take t, x.eval β = true) ↔
          ∃ F : Fin k → Square (Fin n), BinaryCode α F ∧
            LatinFamily (fun a b => q + (tightenings t a b - 1)) F) := by
  simp only [← incrementalBound_eq, ← length_squarePairs]
  constructor
  · exact LatinSquareEncoder.exists_cnf_unreduced order
      (e := { reduced := false, weighted, n, k, q }) rfl hn hk hq.le
  · exact LogLatinSquareEncoder.exists_cnf_unreduced
      (e := { reduced := false, n, k, q }) rfl hn hk hq.le

/-- Three squares of order three, tightened from seven pairs on. -/
theorem incremental_cnf_iff_three :
    (∃ f, ({ reduced := false, n := 3, k := 3, q := 7 } : LatinSquareEncoder).cnf
        Order.identity = some f ∧
      f.coreVariables = List.range' 1 (3 * 3 ^ 3) ∧
      f.incremental.length = (3 * 3 - 7) * (3 * (3 - 1) / 2) ∧
      ∀ t ≤ f.incremental.length, ∀ α,
        (∃ β, (∀ v ∈ f.coreVariables, β v = α v) ∧ f.Holds β ∧
            ∀ x ∈ f.incremental.take t, x.eval β = true) ↔
          ∃ F : Fin 3 → Square (Fin 3), OneHotCode α F ∧
            LatinFamily (fun a b => 7 + (tightenings t a b - 1)) F) ∧
    (∃ f, ({ reduced := false, n := 3, k := 3, q := 7 } : LogLatinSquareEncoder).cnf = some f ∧
      f.coreVariables = List.range' 1 (3 * 3 ^ 2 * log2 3) ∧
      f.incremental.length = (3 * 3 - 7) * (3 * (3 - 1) / 2) ∧
      ∀ t ≤ f.incremental.length, ∀ α,
        (∃ β, (∀ v ∈ f.coreVariables, β v = α v) ∧ f.Holds β ∧
            ∀ x ∈ f.incremental.take t, x.eval β = true) ↔
          ∃ F : Fin 3 → Square (Fin 3), BinaryCode α F ∧
            LatinFamily (fun a b => 7 + (tightenings t a b - 1)) F) :=
  incremental_cnf_iff Order.identity false (by decide) (by decide) (by decide)

end LatinSquares.Generator
