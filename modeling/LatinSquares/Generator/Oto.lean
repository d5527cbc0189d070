/-
# The generator of Latin squares with at-least-one clauses

`Oto` numbers the bits of `r` tables as the unreduced logarithmic encoder does and says for
every symbol that it is somewhere in every row and somewhere in every column, each time through
indicators of its own that the bits define. Nothing says that a symbol is nowhere twice: the
`n` symbols leave no cell of a line for anything else. The number of bits, which the program
computes with floating-point logarithms, is a parameter.

The clauses go into the list `st` as strings, at least one for each clause and more than there
are variables in all, and the index of a bit is one of an array of them. So no number of a run
that fits into the list exceeds an `int`, and the numbers are unbounded here.
-/

import LatinSquares.Generator.UnreducedLog
import LatinSquares.Math.Writing

namespace LatinSquares.Generator

open LatinSquares.Math

/-- The static fields of `Oto`: the clauses written to `st`, the numbers `s1` of variables and
`s2` of clauses, and the last variable. -/
structure Oto where
  st : List (List Literal) := []
  s1 : Nat := 0
  s2 : Nat := 0
  lastVarNumber : Nat := 0

namespace Oto

/-- A clause is added to `st` and counted. -/
def add (m : Oto) (clause : List Literal) : Oto :=
  { m with st := m.st ++ [clause], s2 := m.s2 + 1 }

/-- A loop that fills a row with `++lastVarNumber`. -/
def numbers (m : Oto) (size : Nat) : List Nat × Oto :=
  (List.range size).foldl (fun p _ => (p.1 ++ [p.2.lastVarNumber + 1],
    { p.2 with lastVarNumber := p.2.lastVarNumber + 1, s1 := p.2.s1 + 1 })) ([], m)

/-- The numbers of the bits: a row for every square, with `log` numbers for every cell. -/
def matrix (log n r : Nat) : List (List Nat) × Oto :=
  (List.range r).foldl (fun p _ =>
    let row := (List.range (n * n)).foldl (fun p _ =>
      (p.1 ++ (p.2.numbers log).1, (p.2.numbers log).2)) ([], p.2)
    (p.1 ++ [row.1], row.2)) ([], {})

/-- The literal that is true when bit `j` is not that of `q2`. -/
def differs (q2 j v : Nat) : Literal :=
  if (q2 >>> j) &&& 1 = 1 then .notVar v else .var v

/-- The literal that is true when bit `j` is that of `q2`. -/
def agrees (q2 j v : Nat) : Literal :=
  if (q2 >>> j) &&& 1 = 0 then .notVar v else .var v

/-- One half of `oto`: an indicator for every cell of square `q1` that says that it has symbol
`q2`, and a clause for every line. The two halves go through the cells by rows and by columns:
`cell` gives row and column for the counters of the outer and the inner loop. -/
def half (cell : Nat → Nat → Nat × Nat) (q1 q2 : Nat) (matrix : List (List Nat)) (log n : Nat)
    (m : Oto) : Oto :=
  let ceitin := (m.numbers (n * n)).1
  let indicator := fun a b => ceitin.getD ((cell a b).1 * n + (cell a b).2) 0
  let bit := fun a b j =>
    (matrix.getD q1 []).getD ((cell a b).1 * n * log + (cell a b).2 * log + j) 0
  let m := (List.range n).foldl (fun m a => (List.range n).foldl (fun m b =>
    m.add (.var (indicator a b) :: (List.range log).map fun j => differs q2 j (bit a b j))) m)
    (m.numbers (n * n)).2
  let m := (List.range n).foldl (fun m a => (List.range n).foldl (fun m b =>
    (List.range log).foldl (fun m j =>
      m.add [.notVar (indicator a b), agrees q2 j (bit a b j)]) m) m) m
  (List.range n).foldl (fun m a =>
    m.add ((List.range n).map fun b => .var (indicator a b))) m

/-- `oto`: symbol `q2` in the rows and in the columns of square `q1`. -/
def oto (q1 q2 : Nat) (matrix : List (List Nat)) (log n : Nat) (m : Oto) : Oto :=
  half (fun i k => (k, i)) q1 q2 matrix log n (half (fun k i => (k, i)) q1 q2 matrix log n m)

/-- `main`. -/
def main (log n r : Nat) : Oto :=
  (List.range r).foldl (fun m i => (List.range n).foldl (fun m j =>
    oto i j (matrix log n r).1 log n m) m) (matrix log n r).2

/-- The numbers of the line `p cnf`. -/
def header (log n r : Nat) : Nat × Nat := ((main log n r).s1, (main log n r).s2)

/-- All clauses written so far hold. -/
def Holds (m : Oto) (α : Assignment) : Prop :=
  ∀ clause ∈ m.st, clause.any (Literal.eval α) = true

/-- Every clause written so far is in `Q`. -/
def Writes (m : Oto) (Q : List Literal → Prop) : Prop := ∀ clause ∈ m.st, Q clause

/-- `c` variables are numbered, and variables and clauses are counted. -/
structure Numbered (c : Nat) (m : Oto) : Prop where
  variables_ : m.s1 = c
  last : m.lastVarNumber = c
  clauses : m.s2 = m.st.length

variable {m : Oto} {log n r q1 q2 c : Nat}

theorem numbers_eq (m : Oto) (size : Nat) : m.numbers size =
    (List.range' (m.lastVarNumber + 1) size,
      { m with lastVarNumber := m.lastVarNumber + size, s1 := m.s1 + size }) := by
  induction size with
  | zero => rfl
  | succ size ih =>
      rw [numbers] at ih
      rw [numbers, List.range_succ, List.foldl_append, ih, List.range'_1_concat]
      simp only [List.foldl_cons, List.foldl_nil, Nat.add_assoc, Nat.add_comm 1]

/-- A row for one square. -/
theorem row_eq (m : Oto) (cells : Nat) :
    (List.range cells).foldl (fun p _ => (p.1 ++ (p.2.numbers log).1, (p.2.numbers log).2))
        (([], m) : List Nat × Oto) =
      (List.range' (m.lastVarNumber + 1) (cells * log),
        { m with lastVarNumber := m.lastVarNumber + cells * log, s1 := m.s1 + cells * log }) := by
  induction cells with
  | zero => simp
  | succ cells ih =>
      rw [List.range_succ, List.foldl_append, ih]
      simp only [List.foldl_cons, List.foldl_nil, numbers_eq, Nat.add_mul, Nat.one_mul,
        ← List.range'_append_1, Nat.add_assoc, Nat.add_comm 1]

theorem matrix_eq (log n r : Nat) : matrix log n r =
    ((List.range r).map fun k => List.range' (k * (n * n * log) + 1) (n * n * log),
      { lastVarNumber := r * (n * n * log), s1 := r * (n * n * log) }) := by
  induction r with
  | zero => simp [matrix]
  | succ r ih =>
      rw [matrix] at ih
      rw [matrix, List.range_succ, List.foldl_append, ih]
      simp only [List.foldl_cons, List.foldl_nil, row_eq, List.map_append, List.map_cons,
        List.map_nil, Nat.add_mul, Nat.one_mul]

/-- The number of a bit. -/
theorem bit_eq {k i j : Nat} (hq1 : q1 < r) (hk : k < n) (hi : i < n) (hj : j < log) :
    ((matrix log n r).1.getD q1 []).getD (k * n * log + i * log + j) 0 =
      bitVariable n log q1 k i j := by
  have hindex := index_lt hk hi hj
  rw [Nat.add_mul] at hindex
  have hrow : (matrix log n r).1.getD q1 [] =
      List.range' (q1 * (n * n * log) + 1) (n * n * log) := by
    rw [matrix_eq, List.getD_eq_getElem _ _ (by simpa using hq1), List.getElem_map,
      List.getElem_range]
  rw [hrow, List.getD_eq_getElem _ _ (by simpa using hindex), List.getElem_range', bitVariable]
  ring

theorem adds_add (hm : m.Numbered c) (clause : List Literal) :
    Adds Writes (Numbered c) m (m.add clause) fun Q => Q clause where
  holds Q := by
    unfold Writes add
    rw [List.forall_mem_append, List.forall_mem_singleton]
  keeps := ⟨hm.variables_, hm.last, by simp [add, hm.clauses]⟩

/-- The clauses of one half, with the indicators past `c`. -/
structure Clauses (cell : Nat → Nat → Nat × Nat) (log n q1 q2 c : Nat)
    (Q : List Literal → Prop) : Prop where
  sufficient : ∀ a < n, ∀ b < n,
    Q (.var (c + ((cell a b).1 * n + (cell a b).2) + 1) :: (List.range log).map fun j =>
      differs q2 j (bitVariable n log q1 (cell a b).1 (cell a b).2 j))
  necessary : ∀ a < n, ∀ b < n, ∀ j < log,
    Q [.notVar (c + ((cell a b).1 * n + (cell a b).2) + 1),
      agrees q2 j (bitVariable n log q1 (cell a b).1 (cell a b).2 j)]
  line : ∀ a < n, Q ((List.range n).map fun b =>
    .var (c + ((cell a b).1 * n + (cell a b).2) + 1))

variable {cell : Nat → Nat → Nat × Nat}

/-- The number of an indicator. -/
theorem indicator_eq {k i : Nat} (hk : k < n) (hi : i < n) :
    (List.range' (c + 1) (n * n)).getD (k * n + i) 0 = c + (k * n + i) + 1 := by
  rw [List.getD_eq_getElem _ _ (by simpa using cell_lt hk hi), List.getElem_range']
  omega

theorem adds_half (hcell : ∀ a < n, ∀ b < n, (cell a b).1 < n ∧ (cell a b).2 < n) (hq1 : q1 < r)
    (hm : m.Numbered c) :
    Adds Writes (Numbered (c + n * n)) m (half cell q1 q2 (matrix log n r).1 log n m)
      (Clauses cell log n q1 q2 c) := by
  have hnumbers : m.numbers (n * n) = (List.range' (c + 1) (n * n),
      { m with lastVarNumber := c + n * n, s1 := c + n * n }) := by
    rw [numbers_eq, hm.last, hm.variables_]
  let indicator (a b : Nat) : Nat := (m.numbers (n * n)).1.getD ((cell a b).1 * n + (cell a b).2) 0
  let bit (a b j : Nat) : Nat :=
    ((matrix log n r).1.getD q1 []).getD ((cell a b).1 * n * log + (cell a b).2 * log + j) 0
  have hindicator {a b : Nat} (ha : a < n) (hb : b < n) :
      indicator a b = c + ((cell a b).1 * n + (cell a b).2) + 1 := by
    simp only [indicator, hnumbers, indicator_eq (hcell a ha b hb).1 (hcell a ha b hb).2]
  have hbit {a b j : Nat} (ha : a < n) (hb : b < n) (hj : j < log) :
      bit a b j = bitVariable n log q1 (cell a b).1 (cell a b).2 j :=
    bit_eq hq1 (hcell a ha b hb).1 (hcell a ha b hb).2 hj
  have hstart : (m.numbers (n * n)).2.Numbered (c + n * n) := by
    rw [hnumbers]
    exact ⟨rfl, rfl, hm.clauses⟩
  have hsufficient := adds_foldl (l := List.range n) hstart fun m hm a _ =>
    adds_foldl (l := List.range n) hm fun m hm b _ =>
      adds_add hm (.var (indicator a b) :: (List.range log).map fun j => differs q2 j (bit a b j))
  have hnecessary := adds_foldl (l := List.range n) hsufficient.keeps fun m hm a _ =>
    adds_foldl (l := List.range n) hm fun m hm b _ =>
      adds_foldl (l := List.range log) hm fun m hm j _ =>
        adds_add hm [.notVar (indicator a b), agrees q2 j (bit a b j)]
  have hline := adds_foldl (l := List.range n) hnecessary.keeps fun m hm a _ =>
    adds_add hm ((List.range n).map fun b => .var (indicator a b))
  have hhalf := hsufficient.trans (hnecessary.trans hline)
  refine ⟨fun Q => (hhalf.holds Q).trans (and_congr ?_ ?_), hhalf.keeps⟩
  · rw [hnumbers]
    rfl
  · have hsufficient {a b : Nat} (ha : a < n) (hb : b < n) :
        ((.var (indicator a b) : Literal) ::
            (List.range log).map fun j => differs q2 j (bit a b j)) =
          .var (c + ((cell a b).1 * n + (cell a b).2) + 1) :: (List.range log).map fun j =>
            differs q2 j (bitVariable n log q1 (cell a b).1 (cell a b).2 j) := by
      rw [hindicator ha hb,
        List.map_congr_left fun j hj => by rw [hbit ha hb (List.mem_range.mp hj)]]
    have hline {a : Nat} (ha : a < n) :
        ((List.range n).map fun b => (.var (indicator a b) : Literal)) =
          (List.range n).map fun b => .var (c + ((cell a b).1 * n + (cell a b).2) + 1) :=
      List.map_congr_left fun b hb => by rw [hindicator ha (List.mem_range.mp hb)]
    simp only [List.mem_range]
    constructor
    · rintro ⟨h1, h2, h3⟩
      refine ⟨fun a ha b hb => ?_, fun a ha b hb j hj => ?_, fun a ha => ?_⟩
      · rw [← hsufficient ha hb]
        exact h1 a ha b hb
      · rw [← hindicator ha hb, ← hbit ha hb hj]
        exact h2 a ha b hb j hj
      · rw [← hline ha]
        exact h3 a ha
    · intro h
      refine ⟨fun a ha b hb => ?_, fun a ha b hb j hj => ?_, fun a ha => ?_⟩
      · rw [hsufficient ha hb]
        exact h.sufficient a ha b hb
      · rw [hindicator ha hb, hbit ha hb hj]
        exact h.necessary a ha b hb j hj
      · rw [hline ha]
        exact h.line a ha

/-- The last variable before the indicators of symbol `q2` of square `q1`, in rows for `h = 0` and
in columns for `h = 1`. -/
def indicatorStart (log n r q1 q2 h : Nat) : Nat :=
  r * (n * n * log) + (q1 * (n * 2 * (n * n)) + (q2 * 2 + h) * (n * n))

theorem indicatorStart_add (log n r q1 q2 h : Nat) :
    indicatorStart log n r q1 q2 h + n * n = indicatorStart log n r q1 q2 (h + 1) := by
  unfold indicatorStart
  ring

theorem indicatorStart_two (log n r q1 q2 : Nat) :
    indicatorStart log n r q1 q2 2 = indicatorStart log n r q1 (q2 + 1) 0 := by
  unfold indicatorStart
  ring

theorem indicatorStart_last (log n r q1 : Nat) :
    indicatorStart log n r q1 n 0 = indicatorStart log n r (q1 + 1) 0 0 := by
  unfold indicatorStart
  ring

/-- The clauses for symbol `q2` of square `q1`. -/
def SymbolClauses (log n r q1 q2 : Nat) (Q : List Literal → Prop) : Prop :=
  Clauses (fun k i => (k, i)) log n q1 q2 (indicatorStart log n r q1 q2 0) Q ∧
    Clauses (fun i k => (k, i)) log n q1 q2 (indicatorStart log n r q1 q2 1) Q

theorem adds_oto (hq1 : q1 < r) (hm : m.Numbered (indicatorStart log n r q1 q2 0)) :
    Adds Writes (Numbered (indicatorStart log n r q1 (q2 + 1) 0)) m
      (oto q1 q2 (matrix log n r).1 log n m) (SymbolClauses log n r q1 q2) := by
  have hrows : Adds Writes _ m (half (fun k i => (k, i)) q1 q2 (matrix log n r).1 log n m) _ :=
    adds_half (fun _ ha _ hb => ⟨ha, hb⟩) hq1 hm
  rw [indicatorStart_add] at hrows
  have hcolumns : Adds Writes _ _ (oto q1 q2 (matrix log n r).1 log n m) _ :=
    adds_half (fun _ ha _ hb => ⟨hb, ha⟩) hq1 hrows.keeps
  rw [indicatorStart_add, indicatorStart_two] at hcolumns
  exact hrows.trans hcolumns

/-- What a run of `main` writes: every symbol of every square in rows and in columns. -/
theorem adds_main : Adds Writes (Numbered (indicatorStart log n r r 0 0)) {} (main log n r) fun Q =>
    ∀ q1 < r, ∀ q2 < n, SymbolClauses log n r q1 q2 Q := by
  have hstart : (matrix log n r).2.Numbered (indicatorStart log n r 0 0 0) := by
    rw [matrix_eq]
    exact ⟨by simp [indicatorStart], by simp [indicatorStart], rfl⟩
  have hmain : Adds Writes (Numbered (indicatorStart log n r r 0 0)) (matrix log n r).2
      (main log n r) fun Q => ∀ q1 < r, ∀ q2 < n, SymbolClauses log n r q1 q2 Q := by
    refine adds_foldl_range (fun q1 => Numbered (indicatorStart log n r q1 0 0)) hstart
      fun m q1 hq1 hm => ?_
    rw [← indicatorStart_last]
    exact adds_foldl_range (fun q2 => Numbered (indicatorStart log n r q1 q2 0)) hm
      fun m q2 _ hm => adds_oto hq1 hm
  refine ⟨fun Q => (hmain.holds Q).trans (and_congr_left fun _ => ?_), hmain.keeps⟩
  rw [matrix_eq]
  rfl

variable {α β : Assignment}

/-- The number stored in a cell. -/
def number (log n : Nat) (α : Assignment) (q i j : Nat) : Nat :=
  cellNumber log (fun bit => .var (bitVariable n log q i j bit)) α

theorem eval_differs (q2 j v : Nat) :
    (differs q2 j v).eval β = true ↔ β v ≠ q2.testBit j := by
  rw [differs, Nat.and_one_is_mod, Nat.testBit_eq_decide_div_mod_eq, ← Nat.shiftRight_eq_div_pow]
  rcases Nat.mod_two_eq_zero_or_one (q2 >>> j) with hset | hset <;> simp [hset, Literal.eval]

theorem eval_agrees (q2 j v : Nat) : (agrees q2 j v).eval β = true ↔ β v = q2.testBit j := by
  rw [agrees, Nat.and_one_is_mod, Nat.testBit_eq_decide_div_mod_eq, ← Nat.shiftRight_eq_div_pow]
  rcases Nat.mod_two_eq_zero_or_one (q2 >>> j) with hset | hset <;> simp [hset, Literal.eval]

/-- The two groups of clauses of an indicator define it. -/
theorem defines_iff {i j v : Nat} (hq2 : q2 < 2 ^ log) :
    ((((.var v : Literal) :: (List.range log).map fun bit =>
        differs q2 bit (bitVariable n log q1 i j bit)).any (Literal.eval β) = true) ∧
      ∀ bit < log, ([.notVar v, agrees q2 bit (bitVariable n log q1 i j bit)] : List Literal).any
        (Literal.eval β) = true) ↔
      (β v = true ↔ number log n β q1 i j = q2) := by
  rw [number, cellNumber_eq_iff hq2]
  have hnecessary (bit : Nat) :
      ([.notVar v, agrees q2 bit (bitVariable n log q1 i j bit)] : List Literal).any
        (Literal.eval β) = true ↔
      (β v = true → β (bitVariable n log q1 i j bit) = q2.testBit bit) := by
    rw [← eval_agrees]
    cases hv : β v <;> simp [Literal.eval, hv]
  have hsufficient : ((.var v : Literal) :: (List.range log).map fun bit =>
      differs q2 bit (bitVariable n log q1 i j bit)).any (Literal.eval β) = true ↔
      ((∀ bit < log, β (bitVariable n log q1 i j bit) = q2.testBit bit) → β v = true) := by
    rw [List.any_cons, Bool.or_eq_true, List.any_map, List.any_eq_true, imp_iff_not_or, or_comm]
    simp only [List.mem_range, Function.comp_apply, eval_differs, not_forall, exists_prop,
      Literal.eval_var]
  rw [hsufficient]
  simp only [hnecessary, Literal.eval_var]
  constructor
  · rintro ⟨hback, hforth⟩
    exact ⟨fun hv bit hbit => hforth bit hbit hv, hback⟩
  · intro h
    exact ⟨h.mpr, fun bit hbit hv => h.mp hv bit hbit⟩

/-- The clauses of one half: the indicators are defined, and the symbol is in every line. -/
theorem clauses_iff (hq2 : q2 < 2 ^ log) :
    Clauses cell log n q1 q2 c (fun clause => clause.any (Literal.eval β) = true) ↔
      (∀ a < n, ∀ b < n, (β (c + ((cell a b).1 * n + (cell a b).2) + 1) = true ↔
        number log n β q1 (cell a b).1 (cell a b).2 = q2)) ∧
      ∀ a < n, ∃ b < n, number log n β q1 (cell a b).1 (cell a b).2 = q2 := by
  have hline (a : Nat) : ((List.range n).map fun b =>
      (.var (c + ((cell a b).1 * n + (cell a b).2) + 1) : Literal)).any (Literal.eval β) = true ↔
      ∃ b < n, β (c + ((cell a b).1 * n + (cell a b).2) + 1) = true := by
    rw [List.any_map, List.any_eq_true]
    simp only [List.mem_range, Function.comp_apply, Literal.eval_var]
  constructor
  · intro h
    have hdefined : ∀ a < n, ∀ b < n, (β (c + ((cell a b).1 * n + (cell a b).2) + 1) = true ↔
        number log n β q1 (cell a b).1 (cell a b).2 = q2) := fun a ha b hb =>
      (defines_iff hq2).mp ⟨h.sufficient a ha b hb, h.necessary a ha b hb⟩
    refine ⟨hdefined, fun a ha => ?_⟩
    obtain ⟨b, hb, htrue⟩ := (hline a).mp (h.line a ha)
    exact ⟨b, hb, (hdefined a ha b hb).mp htrue⟩
  · rintro ⟨hdefined, hoccurs⟩
    have hclauses {a b : Nat} (ha : a < n) (hb : b < n) :=
      (defines_iff (n := n) hq2).mpr (hdefined a ha b hb)
    refine ⟨fun a ha b hb => (hclauses ha hb).1, fun a ha b hb => (hclauses ha hb).2,
      fun a ha => (hline a).mpr ?_⟩
    obtain ⟨b, hb, hnumber⟩ := hoccurs a ha
    exact ⟨b, hb, (hdefined a ha b hb).mpr hnumber⟩

theorem bitVariable_eq (q i j bit : Nat) :
    bitVariable n log q i j bit = q * (n * n * log) + ((i * n + j) * log + bit) + 1 := by
  rw [bitVariable]
  ring

/-- The bits are the variables up to the first indicator. -/
theorem bitVariable_mem {q i j bit : Nat} (hq : q < r) (hi : i < n) (hj : j < n)
    (hbit : bit < log) : bitVariable n log q i j bit ∈ List.range' 1 (r * (n * n * log)) := by
  have hindex := layout_index_lt hq hi hj hbit
  rw [bitVariable_eq, List.mem_range'_1]
  omega

/-- The numbers read the bits only. -/
theorem number_congr {q i j : Nat} (hq : q < r) (hi : i < n) (hj : j < n)
    (h : ∀ v ∈ List.range' 1 (r * (n * n * log)), β v = α v) :
    number log n β q i j = number log n α q i j := by
  rw [number, number, cellNumber, cellNumber]
  congr 1
  funext bit
  rw [Literal.eval_var, Literal.eval_var, h _ (bitVariable_mem hq hi hj bit.isLt)]

/-- Every symbol is in every row and in every column of every square. -/
def Occurs (log n r : Nat) (α : Assignment) : Prop :=
  ∀ q1 < r, ∀ q2 < n, (∀ k < n, ∃ i < n, number log n α q1 k i = q2) ∧
    ∀ i < n, ∃ k < n, number log n α q1 k i = q2

theorem Occurs.congr (hα : Occurs log n r α)
    (h : ∀ v ∈ List.range' 1 (r * (n * n * log)), β v = α v) : Occurs log n r β := by
  intro q1 hq1 q2 hq2
  constructor
  · intro k hk
    obtain ⟨i, hi, hnumber⟩ := (hα q1 hq1 q2 hq2).1 k hk
    exact ⟨i, hi, (number_congr hq1 hk hi h).trans hnumber⟩
  · intro i hi
    obtain ⟨k, hk, hnumber⟩ := (hα q1 hq1 q2 hq2).2 i hi
    exact ⟨k, hk, (number_congr hq1 hk hi h).trans hnumber⟩

theorem main_holds_iff : (main log n r).Holds β ↔ ∀ q1 < r, ∀ q2 < n,
    SymbolClauses log n r q1 q2 fun clause => clause.any (Literal.eval β) = true := by
  have hstart : ({} : Oto).Writes fun clause => clause.any (Literal.eval β) = true :=
    fun clause hclause => absurd hclause List.not_mem_nil
  exact (adds_main.holds _).trans (and_iff_right hstart)

/-- A model of the clauses gives every symbol a place. -/
theorem occurs_of_holds (hlog : n ≤ 2 ^ log) (h : (main log n r).Holds β) : Occurs log n r β := by
  intro q1 hq1 q2 hq2
  obtain ⟨hrows, hcolumns⟩ := main_holds_iff.mp h q1 hq1 q2 hq2
  exact ⟨((clauses_iff (hq2.trans_le hlog)).mp hrows).2,
    ((clauses_iff (hq2.trans_le hlog)).mp hcolumns).2⟩

/-- The indicators can be set to what the bits say. -/
theorem exists_holds (hlog : n ≤ 2 ^ log) (h : Occurs log n r α) :
    ∃ β, (∀ v ∈ List.range' 1 (r * (n * n * log)), β v = α v) ∧ (main log n r).Holds β := by
  obtain ⟨β, hextends, hβ⟩ := exists_extend (r * (n * n * log)) α
    (byIndex n 2 (n * n) fun q1 q2 _ cell => decide (number log n α q1 (cell / n) (cell % n) = q2))
  have hαβ : ∀ v ∈ List.range' 1 (r * (n * n * log)), β v = α v := fun v hv =>
    hextends v (by rw [List.mem_range'_1] at hv; omega)
  have hindicator {q1 q2 h k i : Nat} (hq1 : q1 < r) (hq2 : q2 < n) (hh : h < 2) (hk : k < n)
      (hi : i < n) : β (indicatorStart log n r q1 q2 h + (k * n + i) + 1) = true ↔
        number log n β q1 k i = q2 := by
    have hdiv : (k * n + i) / n = k := by
      rw [Nat.mul_comm, Nat.mul_add_div (by omega), Nat.div_eq_of_lt hi, Nat.add_zero]
    have hmod : (k * n + i) % n = i := by
      rw [Nat.mul_comm, Nat.mul_add_mod, Nat.mod_eq_of_lt hi]
    rw [indicatorStart, Nat.add_assoc (r * (n * n * log)), Nat.add_assoc (q1 * _), hβ,
      byIndex_apply hq2 hh (cell_lt hk hi), hdiv, hmod, decide_eq_true_iff,
      number_congr hq1 hk hi hαβ]
  have hoccurs := h.congr hαβ
  refine ⟨β, hαβ, main_holds_iff.mpr fun q1 hq1 q2 hq2 => ?_⟩
  obtain ⟨hrows, hcolumns⟩ := hoccurs q1 hq1 q2 hq2
  exact ⟨(clauses_iff (hq2.trans_le hlog)).mpr
      ⟨fun k hk i hi => hindicator hq1 hq2 Nat.zero_lt_two hk hi, hrows⟩,
    (clauses_iff (hq2.trans_le hlog)).mpr
      ⟨fun i hi k hk => hindicator hq1 hq2 Nat.one_lt_two hk hi, hcolumns⟩⟩

/-- The cells store the symbols of the family `F`. -/
def Stores {r n : Nat} (log : Nat) (α : Assignment) (F : Fin r → Square (Fin n)) : Prop :=
  ∀ (t : Fin r) (i j : Fin n), number log n α t i j = F t i j

/-- The symbols that have a place everywhere fill Latin squares. -/
theorem occurs_iff : Occurs log n r α ↔ ∃ F : Fin r → Square (Fin n),
    Stores log α F ∧ ∀ t, IsLatin (F t) := by
  have hsquare (t : Fin r) := exists_isLatin_iff_occurs
    (T := fun i j : Fin n => number log n α t i j) (s := Fin.val) Fin.val_injective
  constructor
  · intro h
    have hoccurs (t : Fin r) : ∃ L : Square (Fin n),
        (∀ i j : Fin n, number log n α t i j = L i j) ∧ IsLatin L := by
      refine (hsquare t).mpr ⟨fun v k => ?_, fun v i => ?_⟩
      · obtain ⟨i, hi, hnumber⟩ := (h t t.isLt v v.isLt).1 k k.isLt
        exact ⟨⟨i, hi⟩, hnumber⟩
      · obtain ⟨k, hk, hnumber⟩ := (h t t.isLt v v.isLt).2 i i.isLt
        exact ⟨⟨k, hk⟩, hnumber⟩
    choose F hnumber hlatin using hoccurs
    exact ⟨F, hnumber, hlatin⟩
  · rintro ⟨F, hnumber, hlatin⟩ q1 hq1 q2 hq2
    obtain ⟨hrows, hcolumns⟩ := (hsquare ⟨q1, hq1⟩).mp ⟨F ⟨q1, hq1⟩, hnumber ⟨q1, hq1⟩, hlatin _⟩
    constructor
    · intro k hk
      obtain ⟨i, hi⟩ := hrows ⟨q2, hq2⟩ ⟨k, hk⟩
      exact ⟨i, i.isLt, hi⟩
    · intro i hi
      obtain ⟨k, hk⟩ := hcolumns ⟨q2, hq2⟩ ⟨i, hi⟩
      exact ⟨k, k.isLt, hk⟩

/-- The clauses are satisfiable over the bits of Latin squares. -/
theorem exists_holds_iff (hlog : n ≤ 2 ^ log) :
    (∃ β, (∀ v ∈ List.range' 1 (r * (n * n * log)), β v = α v) ∧ (main log n r).Holds β) ↔
      ∃ F : Fin r → Square (Fin n), Stores log α F ∧ ∀ t, IsLatin (F t) := by
  rw [← occurs_iff]
  constructor
  · rintro ⟨β, hαβ, hβ⟩
    exact (occurs_of_holds hlog hβ).congr fun v hv => (hαβ v hv).symm
  · exact exists_holds hlog

/-- A clause does not mention `v`. -/
def Avoids (v : Nat) (clause : List Literal) : Prop := ∀ l ∈ clause, v ∉ l.names

theorem avoids_cons {v : Nat} {l : Literal} {clause : List Literal} :
    Avoids v (l :: clause) ↔ v ∉ l.names ∧ Avoids v clause := List.forall_mem_cons

theorem avoids_map_range {v size : Nat} {f : Nat → Literal} :
    Avoids v ((List.range size).map f) ↔ ∀ j < size, v ∉ (f j).names := by
  rw [Avoids, List.forall_mem_map]
  simp only [List.mem_range]

theorem not_mem_names_var {v x : Nat} : v ∉ (Literal.var x).names ↔ v ≠ x := by
  simp [Literal.names]

theorem not_mem_names_differs {v j x : Nat} : v ∉ (differs q2 j x).names ↔ v ≠ x := by
  rw [differs]
  split <;> simp [Literal.names]

theorem not_mem_names_agrees {v j x : Nat} : v ∉ (agrees q2 j x).names ↔ v ≠ x := by
  rw [agrees]
  split <;> simp [Literal.names]

/-- The variables of one half are its indicators and the bits. -/
theorem clauses_avoids_iff {v : Nat} : Clauses cell log n q1 q2 c (Avoids v) ↔
    ∀ a < n, ∀ b < n, v ≠ c + ((cell a b).1 * n + (cell a b).2) + 1 ∧
      ∀ j < log, v ≠ bitVariable n log q1 (cell a b).1 (cell a b).2 j := by
  constructor
  · intro h a ha b hb
    have hclause := h.sufficient a ha b hb
    rw [avoids_cons, avoids_map_range, not_mem_names_var] at hclause
    exact ⟨hclause.1, fun j hj => not_mem_names_differs.mp (hclause.2 j hj)⟩
  · intro h
    refine ⟨fun a ha b hb => ?_, fun a ha b hb j hj => ?_, fun a ha => ?_⟩
    · rw [avoids_cons, avoids_map_range, not_mem_names_var]
      exact ⟨(h a ha b hb).1, fun j hj => not_mem_names_differs.mpr ((h a ha b hb).2 j hj)⟩
    · rw [avoids_cons, avoids_cons]
      exact ⟨not_mem_names_var.mpr (h a ha b hb).1,
        not_mem_names_agrees.mpr ((h a ha b hb).2 j hj), fun l hl => absurd hl List.not_mem_nil⟩
    · exact avoids_map_range.mpr fun b hb => not_mem_names_var.mpr (h a ha b hb).1

theorem indicator_le (log : Nat) {h k i : Nat} (hq1 : q1 < r) (hq2 : q2 < n) (hh : h < 2)
    (hk : k < n) (hi : i < n) :
    r * (n * n * log) < indicatorStart log n r q1 q2 h + (k * n + i) + 1 ∧
      indicatorStart log n r q1 q2 h + (k * n + i) + 1 ≤ indicatorStart log n r r 0 0 := by
  have hindex := layout_index_lt hq1 hq2 hh (cell_lt hk hi)
  unfold indicatorStart
  omega

/-- The clauses mention all variables that were numbered, and no others. -/
theorem mentions_iff (hn : 0 < n) (v : Nat) :
    (∃ clause ∈ (main log n r).st, ∃ l ∈ clause, v ∈ l.names) ↔
      1 ≤ v ∧ v ≤ indicatorStart log n r r 0 0 := by
  have hwrites : (main log n r).Writes (Avoids v) ↔
      ∀ q1 < r, ∀ q2 < n, SymbolClauses log n r q1 q2 (Avoids v) :=
    (adds_main.holds _).trans (and_iff_right fun clause hclause => absurd hclause List.not_mem_nil)
  have hmentions : (∃ clause ∈ (main log n r).st, ∃ l ∈ clause, v ∈ l.names) ↔
      ¬ (main log n r).Writes (Avoids v) := by
    simp only [Writes, Avoids, not_forall, not_not, exists_prop]
  rw [hmentions, hwrites, not_iff_comm]
  constructor
  · intro hbounds q1 hq1 q2 hq2
    have hindicator {h k i : Nat} (hh : h < 2) (hk : k < n) (hi : i < n) :
        v ≠ indicatorStart log n r q1 q2 h + (k * n + i) + 1 := by
      have hle := indicator_le log hq1 hq2 hh hk hi
      omega
    have hbit {k i j : Nat} (hk : k < n) (hi : i < n) (hj : j < log) :
        v ≠ bitVariable n log q1 k i j := by
      have hmem := List.mem_range'_1.mp (bitVariable_mem hq1 hk hi hj)
      have hsize : r * (n * n * log) ≤ indicatorStart log n r r 0 0 := Nat.le_add_right _ _
      omega
    exact ⟨clauses_avoids_iff.mpr fun k hk i hi =>
        ⟨hindicator Nat.zero_lt_two hk hi, fun j hj => hbit hk hi hj⟩,
      clauses_avoids_iff.mpr fun i hi k hk =>
        ⟨hindicator Nat.one_lt_two hk hi, fun j hj => hbit hk hi hj⟩⟩
  · rintro h ⟨hone, hlast⟩
    by_cases hbit : v ≤ r * (n * n * log)
    · obtain ⟨t, ht, i, hi, j, hj, b, hb, hindex⟩ :=
        exists_index (show v - 1 < r * (n * n * log) by omega)
      refine (clauses_avoids_iff.mp (h t ht 0 hn).1 i hi j hj).2 b hb ?_
      rw [bitVariable_eq]
      simp only
      omega
    · obtain ⟨q1, hq1, q2, hq2, half, hhalf, cell, hcell, hindex⟩ :=
        exists_index (show v - r * (n * n * log) - 1 < r * (n * 2 * (n * n)) by
          unfold indicatorStart at hlast
          omega)
      have hk : cell / n < n := Nat.div_lt_of_lt_mul hcell
      have hi : cell % n < n := Nat.mod_lt _ hn
      have hv : v = indicatorStart log n r q1 q2 half + (cell / n * n + cell % n) + 1 := by
        rw [Nat.div_add_mod', indicatorStart]
        omega
      obtain rfl | rfl : half = 0 ∨ half = 1 := by omega
      · exact (clauses_avoids_iff.mp (h q1 hq1 q2 hq2).1 _ hk _ hi).1 hv
      · exact (clauses_avoids_iff.mp (h q1 hq1 q2 hq2).2 _ hi _ hk).1 hv

/-- The least number of bits in which every symbol has a code. -/
theorem isLeast_log2 (hn : 0 < n) : IsLeast {b | n ≤ 2 ^ b} (log2 n) := by
  refine ⟨le_two_pow_log2 n, fun b hb => ?_⟩
  have hself : 2 ^ Nat.log2 n ≤ n := Nat.log2_self_le hn.ne'
  rw [log2]
  split
  · exact (Nat.pow_le_pow_iff_right Nat.one_lt_two).mp (hself.trans hb)
  · next hpow =>
      exact (Nat.pow_lt_pow_iff_right Nat.one_lt_two).mp
        ((lt_of_le_of_ne hself fun heq => hpow heq.symm).trans_le hb)

/-- Over the bits of the tables, the clauses of `Oto` and those of the unreduced logarithmic
encoder without orthogonality are satisfiable for the codes of Latin squares, and the header
counts the variables and the clauses of `Oto`. -/
theorem extends_iff_cnf (hn : 2 ≤ n) (hr : 2 ≤ r) (hlog : IsLeast {b | n ≤ 2 ^ b} log) :
    ∃ f, ({ reduced := false, n, k := r, q := 0 } : LogLatinSquareEncoder).cnf = some f ∧
      f.coreVariables = List.range' 1 (r * n * n * log) ∧
      (∀ α, ((∃ β, (∀ v ∈ f.coreVariables, β v = α v) ∧ (main log n r).Holds β) ↔
          ∃ β, (∀ v ∈ f.coreVariables, β v = α v) ∧ f.Holds β) ∧
        ((∃ β, (∀ v ∈ f.coreVariables, β v = α v) ∧ (main log n r).Holds β) ↔
          ∃ F : Fin r → Square (Fin n), Stores log α F ∧ ∀ t, IsLatin (F t))) ∧
      (∀ v, (∃ clause ∈ (main log n r).st, ∃ l ∈ clause, v ∈ l.names) ↔
        1 ≤ v ∧ v ≤ (header log n r).1) ∧
      (header log n r).2 = (main log n r).st.length := by
  obtain rfl : log = log2 n := hlog.unique (isLeast_log2 (by omega))
  obtain ⟨f, hf, hcore, -, hmeaning⟩ := LogLatinSquareEncoder.exists_cnf_unreduced
    (e := { reduced := false, n, k := r, q := 0 }) rfl hn hr (Nat.zero_le _)
  have hsize : f.coreVariables = List.range' 1 (r * (n * n * log2 n)) := by
    rw [hcore]
    congr 1
    ring
  have hstores (α : Assignment) :
      (∃ β, (∀ v ∈ f.coreVariables, β v = α v) ∧ (main (log2 n) n r).Holds β) ↔
        ∃ F : Fin r → Square (Fin n), Stores (log2 n) α F ∧ ∀ t, IsLatin (F t) := by
    rw [hsize, exists_holds_iff (le_two_pow_log2 n)]
  refine ⟨f, hf, ?_, fun α => ⟨?_, hstores α⟩, fun v => ?_, ?_⟩
  · rw [hcore]
    congr 1
    ring
  · rw [hstores]
    have hzero := hmeaning 0 (Nat.zero_le _) α
    simp only [List.take_zero, List.not_mem_nil, false_imp_iff, implies_true, and_true,
      incrementalBound_zero] at hzero
    rw [hzero]
    refine exists_congr fun F => and_congr Iff.rfl ?_
    exact ⟨fun hlatin => ⟨hlatin, fun _ _ _ => Nat.zero_le _⟩, fun hfamily => hfamily.latin⟩
  · rw [mentions_iff (by omega), header, adds_main.keeps.variables_]
  · rw [header, adds_main.keeps.clauses]

/-- Two squares of order three, with two bits for a cell. -/
theorem extends_iff_cnf_three :
    ∃ f, ({ reduced := false, n := 3, k := 2, q := 0 } : LogLatinSquareEncoder).cnf = some f ∧
      f.coreVariables = List.range' 1 (2 * 3 * 3 * 2) ∧
      (∀ α, ((∃ β, (∀ v ∈ f.coreVariables, β v = α v) ∧ (main 2 3 2).Holds β) ↔
          ∃ β, (∀ v ∈ f.coreVariables, β v = α v) ∧ f.Holds β) ∧
        ((∃ β, (∀ v ∈ f.coreVariables, β v = α v) ∧ (main 2 3 2).Holds β) ↔
          ∃ F : Fin 2 → Square (Fin 3), Stores 2 α F ∧ ∀ t, IsLatin (F t))) ∧
      (∀ v, (∃ clause ∈ (main 2 3 2).st, ∃ l ∈ clause, v ∈ l.names) ↔
        1 ≤ v ∧ v ≤ (header 2 3 2).1) ∧
      (header 2 3 2).2 = (main 2 3 2).st.length :=
  extends_iff_cnf (by decide) le_rfl
    ⟨by decide, fun b hb => Nat.succ_le_of_lt (by
      by_contra hle
      have hpow : 2 ^ b ≤ 2 ^ 1 := Nat.pow_le_pow_right Nat.two_pos (by omega)
      have hthree : 3 ≤ 2 ^ b := hb
      omega)⟩

end Oto

end LatinSquares.Generator
