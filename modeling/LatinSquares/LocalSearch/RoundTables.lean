/-
# The counters at the start of a round

`solve` counts in every round how often each symbol occurs in the rows and columns of
`metaValues`, and how often each pair of symbols occurs in two squares. A table is a function on
its indices, and the counters, which have 8 bits in the source, are unbounded here: this is the
function on inputs for which no counter overflows.
-/

import LatinSquares.Generator.Assembly
import LatinSquares.LocalSearch.Construction
import LatinSquares.Math.Loops
import LatinSquares.Math.Tally
import Mathlib.Data.List.ProdSigma

namespace LatinSquares.LocalSearch

open LatinSquares.Math

/-- `metaValues[matrix][row][column] - 1`, the index of a symbol. The symbols start at `1`. -/
def symbolAt (metaValues : List (List (List UInt32))) (place : Nat × Nat × Nat) : Nat :=
  ((metaValueAt metaValues place).getD 0).toNat - 1

/-- The positions met by two loops to the size of one square. -/
def positions (size : Nat) : List (Nat × Nat) :=
  (List.range size).flatMap fun i => (List.range size).map fun j => (i, j)

/-- The pairs met by the loop over `k1` and the loop from `k1 + 1` over `k2`. -/
def squareLoop (squares : Nat) : List (Nat × Nat) :=
  (List.range squares).flatMap fun k1 =>
    (List.range' (k1 + 1) (squares - (k1 + 1))).map fun k2 => (k1, k2)

/-- A table of zeros after `++` at every key. -/
def countKeys {K : Type} [DecidableEq K] (keys : List K) : K → Nat :=
  keys.foldl (fun table key => Function.update table key (table key + 1)) fun _ => 0

/-- The cells met by the loops over the squares. -/
def cells (metaValues : List (List (List UInt32))) : List (Nat × Nat × Nat) :=
  (List.range metaValues.length).flatMap fun k =>
    (positions (metaValues.getD k []).length).map fun cell => (k, cell)

/-- `rowsDistinct[k][i][symbol]`. -/
def rowsDistinct (metaValues : List (List (List UInt32))) : Nat × Nat × Nat → Nat :=
  countKeys ((cells metaValues).map fun c => (c.1, c.2.1, symbolAt metaValues c))

/-- `columnsDistinct[k][j][symbol]`. -/
def columnsDistinct (metaValues : List (List (List UInt32))) : Nat × Nat × Nat → Nat :=
  countKeys ((cells metaValues).map fun c => (c.1, c.2.2, symbolAt metaValues c))

/-- The two indices of a pair of symbols of two squares in `pairsIndex`. -/
def pairKey (size : Nat) (p : Nat × Nat) (val1 val2 : Nat) : Nat × Nat :=
  (p.1 + p.2 - 1, val1 * size + val2)

/-- `pairsIndex`. -/
def pairsIndex (metaValues : List (List (List UInt32))) : Nat × Nat → Nat :=
  countKeys ((squareLoop metaValues.length).flatMap fun p =>
    let size := (metaValues.getD p.1 []).length
    (positions size).map fun cell =>
      pairKey size p (symbolAt metaValues (p.1, cell)) (symbolAt metaValues (p.2, cell)))

section Tables

variable {K X : Type} [DecidableEq K]

theorem countKeys_apply (keys : List K) (key : K) : countKeys keys key = keys.count key := by
  unfold countKeys
  rw [foldl_update (· + 1)]
  exact (Nat.succ_iterate 0 _).trans (Nat.zero_add _)

/-- Counting the keys of different entries. -/
theorem count_map [DecidableEq X] {l : List X} (hl : l.Nodup) {entries : Finset X}
    (hentries : ∀ x, x ∈ l ↔ x ∈ entries) (f : X → K) (key : K) :
    (l.map f).count key = (entries.filter fun x => f x = key).card := by
  obtain rfl : l.toFinset = entries := Finset.ext fun x => List.mem_toFinset.trans (hentries x)
  rw [List.count_eq_countP, List.countP_map, List.countP_eq_length_filter,
    ← List.toFinset_card_of_nodup (hl.filter _), List.toFinset_filter]
  simp

variable {metaValues : List (List (List UInt32))} {squares n : Nat}

/-- Squares of order `n` with the symbols `1..n`. -/
structure Filled (metaValues : List (List (List UInt32))) (squares n : Nat) : Prop where
  length : metaValues.length = squares
  order : ∀ rows ∈ metaValues, rows.length = n
  symbols : ∀ k < squares, ∀ i < n, ∀ j < n, ∃ symbol,
    metaValueAt metaValues (k, i, j) = some symbol ∧ 1 ≤ symbol.toNat ∧ symbol.toNat ≤ n

theorem Filled.getD_length (h : Filled metaValues squares n) {k : Nat} (hk : k < squares) :
    (metaValues.getD k []).length = n := by
  have hlt : k < metaValues.length := h.length.symm ▸ hk
  rw [List.getD_eq_getElem?_getD, List.getElem?_eq_getElem hlt]
  exact h.order _ (List.getElem_mem hlt)

theorem Filled.symbolAt_lt (h : Filled metaValues squares n) {k i j : Nat} (hk : k < squares)
    (hi : i < n) (hj : j < n) : symbolAt metaValues (k, i, j) < n := by
  obtain ⟨symbol, hsymbol, hpos, hle⟩ := h.symbols k hk i hi j hj
  rw [symbolAt, hsymbol]
  exact Nat.lt_of_lt_of_le (Nat.sub_lt hpos Nat.one_pos) hle

theorem Filled.superimposed_mem (h : Filled metaValues squares n) {p cell : Nat × Nat}
    (hp : p ∈ squarePairs squares) (hcell : cell ∈ grid n) :
    superimposed (symbolAt metaValues) p cell ∈ grid n := by
  obtain ⟨hlt, hp⟩ := mem_squarePairs.mp hp
  obtain ⟨hi, hj⟩ := mem_grid.mp hcell
  exact mem_grid.mpr ⟨h.symbolAt_lt (hlt.trans hp) hi hj, h.symbolAt_lt hp hi hj⟩

theorem positions_eq (n : Nat) : positions n = List.range n ×ˢ List.range n := rfl

theorem mem_positions {cell : Nat × Nat} : cell ∈ positions n ↔ cell ∈ grid n := by
  rw [positions_eq, mem_grid]
  exact List.mem_product.trans (and_congr List.mem_range List.mem_range)

theorem positions_nodup (n : Nat) : (positions n).Nodup :=
  List.Nodup.product List.nodup_range List.nodup_range

theorem cells_eq (h : Filled metaValues squares n) :
    cells metaValues = List.range squares ×ˢ positions n := by
  unfold cells
  rw [h.length]
  refine List.flatMap_congr fun k hk => ?_
  rw [h.getD_length (List.mem_range.mp hk)]

theorem mem_squareLoop {p : Nat × Nat} : p ∈ squareLoop squares ↔ p ∈ squarePairs squares :=
  Generator.mem_squarePairs.trans mem_squarePairs.symm

theorem squareLoop_nodup (squares : Nat) : (squareLoop squares).Nodup :=
  Generator.squarePairs_nodup squares

/-- The cells of all squares. -/
def cube (squares n : Nat) : Finset Cell := Finset.range squares ×ˢ grid n

theorem count_cells (h : Filled metaValues squares n) {f : Cell → K} {key : K} :
    ((cells metaValues).map f).count key = ((cube squares n).filter fun c => f c = key).card := by
  rw [cells_eq h]
  refine count_map (List.Nodup.product List.nodup_range (positions_nodup n)) (fun c => ?_) f key
  rw [cube, Finset.mem_product, Finset.mem_range]
  exact List.mem_product.trans (and_congr List.mem_range mem_positions)

theorem rowsDistinct_eq (h : Filled metaValues squares n) {k i : Nat} (hk : k < squares)
    (hi : i < n) (s : Nat) :
    rowsDistinct metaValues (k, i, s) = tally (rowCells n k i) (symbolAt metaValues) s := by
  rw [rowsDistinct, countKeys_apply, count_cells h, tally]
  congr 1
  ext c
  simp only [Finset.mem_filter, cube, Finset.mem_product, Finset.mem_range, mem_grid, mem_rowCells,
    Prod.mk.injEq]
  constructor
  · rintro ⟨⟨-, -, hj⟩, rfl, rfl, hs⟩
    exact ⟨⟨rfl, rfl, hj⟩, hs⟩
  · rintro ⟨⟨rfl, rfl, hj⟩, hs⟩
    exact ⟨⟨hk, hi, hj⟩, rfl, rfl, hs⟩

theorem columnsDistinct_eq (h : Filled metaValues squares n) {k j : Nat} (hk : k < squares)
    (hj : j < n) (s : Nat) :
    columnsDistinct metaValues (k, j, s) = tally (columnCells n k j) (symbolAt metaValues) s := by
  rw [columnsDistinct, countKeys_apply, count_cells h, tally]
  congr 1
  ext c
  simp only [Finset.mem_filter, cube, Finset.mem_product, Finset.mem_range, mem_grid,
    mem_columnCells, Prod.mk.injEq]
  constructor
  · rintro ⟨⟨-, hi, -⟩, rfl, rfl, hs⟩
    exact ⟨⟨rfl, hi, rfl⟩, hs⟩
  · rintro ⟨⟨rfl, hi, rfl⟩, hs⟩
    exact ⟨⟨hk, hi, hj⟩, rfl, rfl, hs⟩

/-- With at most three squares every pair of squares has a row of its own in `pairsIndex`. -/
theorem pairKey_inj (hsquares : squares ≤ 3) {p q : Nat × Nat} (hp : p ∈ squarePairs squares)
    (hq : q ∈ squarePairs squares) {v w : Nat × Nat} (hv : v ∈ grid n) (hw : w ∈ grid n) :
    pairKey n p v.1 v.2 = pairKey n q w.1 w.2 ↔ p = q ∧ v = w := by
  refine ⟨fun h => ?_, by rintro ⟨rfl, rfl⟩; rfl⟩
  obtain ⟨hindex, hsymbols⟩ := Prod.mk.inj h
  have hp := mem_squarePairs.mp hp
  have hq := mem_squarePairs.mp hq
  have hv := (mem_grid.mp hv).2
  have hw := (mem_grid.mp hw).2
  constructor
  · exact Prod.ext (by omega) (by omega)
  · have hfirst : v.1 = w.1 := by
      have hdiv := congrArg (· / n) hsymbols
      simpa [Nat.add_div_of_dvd_right, Nat.mul_add_div, Nat.mul_comm, Nat.div_eq_of_lt hv,
        Nat.div_eq_of_lt hw, show 0 < n by omega] using hdiv
    refine Prod.ext hfirst ?_
    rw [hfirst] at hsymbols
    exact Nat.add_left_cancel hsymbols

theorem pairsIndex_eq (h : Filled metaValues squares n) (hsquares : squares ≤ 3)
    {p v : Nat × Nat} (hp : p ∈ squarePairs squares) (hv : v ∈ grid n) :
    pairsIndex metaValues (pairKey n p v.1 v.2) =
      tally (grid n) (superimposed (symbolAt metaValues) p) v := by
  have hkeys : ((squareLoop metaValues.length).flatMap fun p =>
      (positions (metaValues.getD p.1 []).length).map fun cell =>
        pairKey (metaValues.getD p.1 []).length p (symbolAt metaValues (p.1, cell))
          (symbolAt metaValues (p.2, cell))) =
      (squareLoop squares ×ˢ positions n).map fun x =>
        pairKey n x.1 (symbolAt metaValues (x.1.1, x.2)) (symbolAt metaValues (x.1.2, x.2)) := by
    rw [h.length]
    show _ = ((squareLoop squares).flatMap fun p => (positions n).map (Prod.mk p)).map _
    rw [List.map_flatMap]
    refine List.flatMap_congr fun q hq => ?_
    obtain ⟨hlt, hq⟩ := mem_squarePairs.mp (mem_squareLoop.mp hq)
    rw [h.getD_length (hlt.trans hq), List.map_map]
    rfl
  have hmem : ∀ x : (Nat × Nat) × Nat × Nat, x ∈ squareLoop squares ×ˢ positions n ↔
      x ∈ squarePairs squares ×ˢ grid n := fun x =>
    List.mem_product.trans ((and_congr mem_squareLoop mem_positions).trans Finset.mem_product.symm)
  rw [pairsIndex, hkeys, countKeys_apply,
    count_map ((squareLoop_nodup squares).product (positions_nodup n)) hmem, tally]
  have hset : ((squarePairs squares ×ˢ grid n).filter fun x =>
      pairKey n x.1 (symbolAt metaValues (x.1.1, x.2)) (symbolAt metaValues (x.1.2, x.2)) =
        pairKey n p v.1 v.2) =
      {p} ×ˢ (grid n).filter fun cell => superimposed (symbolAt metaValues) p cell = v := by
    ext ⟨q, cell⟩
    simp only [Finset.mem_filter, Finset.mem_product, Finset.mem_singleton]
    constructor
    · rintro ⟨⟨hq, hcell⟩, hkey⟩
      obtain ⟨rfl, hvalue⟩ :=
        (pairKey_inj hsquares hq hp (h.superimposed_mem hq hcell) hv).mp hkey
      exact ⟨rfl, hcell, hvalue⟩
    · rintro ⟨rfl, hcell, hvalue⟩
      refine ⟨⟨hp, hcell⟩, ?_⟩
      exact (pairKey_inj hsquares hp hp (h.superimposed_mem hp hcell) hv).mpr ⟨rfl, hvalue⟩
  rw [hset, Finset.card_product, Finset.card_singleton, Nat.one_mul]

end Tables

end LatinSquares.LocalSearch
