/-
# What the constraints on squares say

A table of literals describes, under an assignment, which symbols a cell shows.
`latin` and `logLatin` are satisfied exactly when the described square is Latin,
and the constraints on two tables bound the number of pairs the squares show:
`fullyOrthogonalSquare` by forbidding repeated pairs, `orthogonal` and
`logOrthogonal` by counting the pairs that occur.
-/

import LatinSquares.Generator.Orthogonality
import LatinSquares.Generator.Tables

namespace LatinSquares.Generator

open LatinSquares.Math
open Expression (and)

section Lists

variable {β : Type}

/-- A list of lines given by their entries, transposed. -/
theorem transpose_map_range [Inhabited β] {n m : Nat} (hn : 0 < n) (f : Nat → Nat → β) :
    transpose ((List.range n).map fun i => (List.range m).map (f i)) =
      (List.range m).map fun j => (List.range n).map fun i => f i j := by
  obtain ⟨n, rfl⟩ := Nat.exists_eq_add_of_lt hn
  rw [Nat.zero_add]
  have hcons : (List.range (n + 1)).map (fun i => (List.range m).map (f i)) =
      (List.range m).map (f 0) ::
        (List.range n).map fun i => (List.range m).map (f (i + 1)) := by
    rw [List.range_succ_eq_map, List.map_cons, List.map_map]
    rfl
  have hlength : ((List.range m).map (f 0)).length = m := by simp
  rw [hcons, transpose, hlength, ← hcons]
  refine List.map_congr_left fun j hj => ?_
  rw [List.map_map]
  refine List.map_congr_left fun i _ => ?_
  exact getD_map_range _ _ (List.mem_range.mp hj)

/-- The cells of a table, row by row. -/
theorem flatten_map_range {n m : Nat} (hm : 0 < m) (f : Nat → Nat → β) :
    ((List.range n).map fun i => (List.range m).map (f i)).flatten =
      (List.range (n * m)).map fun p => f (p / m) (p % m) := by
  induction n with
  | zero => simp
  | succ n ih =>
      rw [List.range_succ, List.map_append, List.flatten_append, ih, Nat.succ_mul,
        List.range_add, List.map_append, List.map_map]
      congr 1
      simp only [List.map_cons, List.map_nil, List.flatten_cons, List.flatten_nil,
        List.append_nil]
      refine List.map_congr_left fun j hj => ?_
      have hj := List.mem_range.mp hj
      rw [Function.comp_apply, Nat.add_comm (n * m) j, Nat.add_mul_div_right _ _ hm,
        Nat.div_eq_of_lt hj, Nat.add_mul_mod_self_right, Nat.mod_eq_of_lt hj, Nat.zero_add]

theorem mapIdx_map_range {γ : Type} {n : Nat} (f : Nat → β) (g : Nat → β → γ) :
    ((List.range n).map f).mapIdx g = (List.range n).map fun i => g i (f i) := by
  refine List.ext_getElem (by simp) fun i hi hi' => ?_
  rw [List.getElem_mapIdx, List.getElem_map, List.getElem_map, List.getElem_range]

theorem exists_div_mod_iff {n m : Nat} (hm : 0 < m) {P : Nat → Nat → Prop} :
    (∃ p < n * m, P (p / m) (p % m)) ↔ ∃ i < n, ∃ j < m, P i j := by
  constructor
  · rintro ⟨p, hp, h⟩
    exact ⟨p / m, Nat.div_lt_of_lt_mul (by rwa [Nat.mul_comm]), p % m, Nat.mod_lt _ hm, h⟩
  · rintro ⟨i, hi, j, hj, h⟩
    refine ⟨i * m + j, ?_, ?_⟩
    · have hrow : (i + 1) * m ≤ n * m := Nat.mul_le_mul_right m hi
      rw [Nat.add_mul] at hrow
      omega
    · rw [Nat.add_comm, Nat.add_mul_div_right _ _ hm, Nat.div_eq_of_lt hj,
        Nat.add_mul_mod_self_right, Nat.mod_eq_of_lt hj, Nat.zero_add]
      exact h

end Lists

section Tables

variable {n q : Nat} {f g : Nat → Nat → Nat → Literal} {α : Assignment} {L M : Square (Fin n)}

/-- The symbols the cells of a table show. -/
def Shows (α : Assignment) (f : Nat → Nat → Nat → Literal) (i j k : Fin n) : Prop :=
  (f i j k).eval α = true

/-- One literal of a line is true. -/
theorem oneTrue_map_range {g : Nat → Literal} :
    OneTrue α ((List.range n).map g) ↔ ∃! i : Fin n, (g i).eval α = true := by
  rw [OneTrue, List.length_map, List.length_range]
  constructor
  · rintro ⟨i, ⟨hi, htrue⟩, hunique⟩
    rw [getD_map_range _ _ hi] at htrue
    refine ⟨⟨i, hi⟩, htrue, fun j hj => Fin.ext (hunique j ⟨j.isLt, ?_⟩)⟩
    rwa [getD_map_range _ _ j.isLt]
  · rintro ⟨i, htrue, hunique⟩
    refine ⟨i, ⟨i.isLt, ?_⟩, ?_⟩
    · rwa [getD_map_range _ _ i.isLt]
    · rintro j ⟨hj, hjtrue⟩
      rw [getD_map_range _ _ hj] at hjtrue
      exact congrArg Fin.val (hunique ⟨j, hj⟩ hjtrue)

theorem forall_mem_map_range {β : Type} {g : Nat → β} {P : β → Prop} :
    (∀ y ∈ (List.range n).map g, P y) ↔ ∀ i : Fin n, P (g i) := by
  simp only [List.forall_mem_map, List.mem_range]
  exact ⟨fun h i => h i i.isLt, fun h i hi => h ⟨i, hi⟩⟩

/-- Every symbol occurs once in every line of a table. -/
theorem eval_lines (hn : 0 < n) {h : Nat → Nat → Literal} :
    (codeSufficient (transpose ((List.range n).map fun j => (List.range n).map (h j)))).eval α =
        true ↔ ∀ k : Fin n, ∃! j : Fin n, (h j k).eval α = true := by
  rw [transpose_map_range hn, eval_codeSufficient, forall_mem_map_range]
  exact forall_congr' fun k => oneTrue_map_range

/-- `codeLine`: one symbol in every cell of a line, and every symbol once in it. -/
theorem eval_codeLine (hn : 0 < n) {h : Nat → Nat → Literal} :
    (codeLine ((List.range n).map fun j => (List.range n).map (h j))).eval α = true ↔
      (∀ j : Fin n, ∃! k : Fin n, (h j k).eval α = true) ∧
        ∀ k : Fin n, ∃! j : Fin n, (h j k).eval α = true := by
  rw [codeLine, Expression.eval_and]
  simp only [List.all_cons, List.all_nil, Bool.and_true, Bool.and_eq_true]
  rw [eval_lines hn, eval_codeSufficient, forall_mem_map_range]
  exact and_congr (forall_congr' fun j => oneTrue_map_range) Iff.rfl

/-- The columns of a table, each symbol once in each. -/
theorem eval_columns (hn : 0 < n) :
    (((transpose (matrixOf n n n f)).map fun matrix => codeSufficient (transpose matrix)).all
      (Expression.eval α)) = true ↔ ∀ j k : Fin n, ∃! i : Fin n, (f i j k).eval α = true := by
  rw [matrixOf, transpose_map_range hn, List.all_eq_true, List.forall_mem_map,
    forall_mem_map_range]
  exact forall_congr' fun j => eval_lines hn

/-- `latin` is satisfied by the tables that describe Latin squares. -/
theorem eval_latin (hn : 0 < n) : (latin (matrixOf n n n f)).eval α = true ↔
    ∃ L : Square (Fin n), IsLatin L ∧ OneHot (Shows α f) L := by
  rw [exists_isLatin_iff, latin, Expression.eval_and, List.all_append, Bool.and_eq_true,
    eval_columns hn, matrixOf, List.all_eq_true, List.forall_mem_map, forall_mem_map_range,
    ← and_assoc]
  refine and_congr ?_ Iff.rfl
  rw [← forall_and]
  exact forall_congr' fun i => eval_codeLine hn

/-- `logLatin` says nothing about the cells; where no cell shows two symbols it is
satisfied by the tables that describe Latin squares as well. -/
theorem eval_logLatin (hn : 0 < n)
    (hcell : ∀ i j k k' : Fin n, Shows α f i j k → Shows α f i j k' → k = k') :
    (logLatin (matrixOf n n n f)).eval α = true ↔
      ∃ L : Square (Fin n), IsLatin L ∧ OneHot (Shows α f) L := by
  rw [exists_isLatin_iff_lines hcell, logLatin, Expression.eval_and, List.all_append,
    Bool.and_eq_true, eval_columns hn, matrixOf, List.all_eq_true, List.forall_mem_map,
    forall_mem_map_range]
  refine and_congr ?_ Iff.rfl
  exact forall_congr' fun i => eval_lines hn

/-- `equal` asks for one value and excludes the others. -/
theorem eval_equal {h : Nat → Literal} {value : Nat} :
    (equal ((List.range n).map h) value).eval α = true ↔
      ∀ k < n, (h k).eval α = decide (k + 1 = value) := by
  rw [equal, mapIdx_map_range, Expression.eval_and, List.all_eq_true, List.forall_mem_map]
  simp only [List.mem_range]
  refine forall_congr' fun k => forall_congr' fun _ => ?_
  by_cases hk : k + 1 = value <;> simp [hk]

theorem equal_proper_of_within {c value : Nat} {vector : List Literal}
    (h : ∀ l ∈ vector, l.Within c) : (equal vector value).Proper c := by
  refine Expression.proper_and fun e he => ?_
  obtain ⟨k, hk, rfl⟩ := List.mem_mapIdx.mp he
  have hwithin := h _ (List.getElem_mem hk)
  refine Expression.proper_literal ?_
  split
  · exact hwithin
  · exact Literal.within_not.mpr hwithin

theorem equal_proper {m c value : Nat} {h : Nat → Literal} (hh : ∀ k < m, (h k).Within c) :
    (equal ((List.range m).map h) value).Proper c :=
  equal_proper_of_within (forall_mem_map_range.mpr fun k => hh k k.isLt)

theorem equal_ofLiterals (vector : List Literal) (value : Nat) :
    (equal vector value).OfLiterals := by
  refine Expression.ofLiterals_and fun e he => ?_
  obtain ⟨k, hk, rfl⟩ := List.mem_mapIdx.mp he
  exact Expression.ofLiterals_literal _

/-- In a one-hot cell, `equal` asks for the symbol of the cell. -/
theorem eval_equal_of_cell {h : Nat → Literal} {a : Fin n}
    (hcell : ∀ v : Fin n, (h v).eval α = true ↔ a = v) (b : Fin n) :
    (equal ((List.range n).map h) (b + 1)).eval α = true ↔ a = b := by
  rw [eval_equal]
  constructor
  · intro hvalues
    have hb := hvalues b b.isLt
    exact (hcell b).mp (by rw [hb]; simp)
  · rintro rfl k hk
    rw [Bool.eq_iff_iff, decide_eq_true_iff, hcell ⟨k, hk⟩, Fin.ext_iff]
    exact ⟨fun h => by rw [h], fun h => (Nat.succ.inj h).symm⟩

theorem eval_equal_of_oneHot (hL : OneHot (Shows α f) L) (i j a : Fin n) :
    (equal ((List.range n).map (f i j)) (a + 1)).eval α = true ↔ L i j = a :=
  eval_equal_of_cell (hL i j) a

/-- The cells of a square table, in one list. -/
theorem flatten_matrixOf (hn : 0 < n) : (matrixOf n n q f).flatten =
    (List.range (n * n)).map fun p => (List.range q).map (f (p / n) (p % n)) :=
  flatten_map_range hn fun i j => (List.range q).map (f i j)

/-- The positions at which two rows of cells have the symbols numbered `aN` and `bN`. -/
def rowPositions (size n : Nat) (f g : Nat → Nat → Literal) (aN bN : Nat) : List Expression :=
  (List.range size).map fun p =>
    and [equal ((List.range n).map (f p)) aN, equal ((List.range n).map (g p)) bN]

theorem equalExprs_rows (size n : Nat) (f g : Nat → Nat → Literal) (aN bN : Nat) :
    equalExprs ((List.range size).map fun p => (List.range n).map (f p))
      ((List.range size).map fun p => (List.range n).map (g p)) aN bN =
        rowPositions size n f g aN bN := by
  rw [equalExprs, List.length_map, List.length_range]
  refine List.map_congr_left fun p hp => ?_
  have hp := List.mem_range.mp hp
  rw [getD_map_range _ _ hp, getD_map_range _ _ hp]

theorem equalExprs_matrixOf (hn : 0 < n) (aN bN : Nat) :
    equalExprs (matrixOf n n n f).flatten (matrixOf n n n g).flatten aN bN =
      rowPositions (n * n) n (fun p => f (p / n) (p % n)) (fun p => g (p / n) (p % n)) aN bN := by
  rw [flatten_matrixOf hn, flatten_matrixOf hn, equalExprs_rows]

/-- In one-hot tables, some position has the two symbols exactly when the squares
show the pair. -/
theorem any_equalExprs (hn : 0 < n) (hL : OneHot (Shows α f) L) (hM : OneHot (Shows α g) M)
    (a b : Fin n) :
    (equalExprs (matrixOf n n n f).flatten (matrixOf n n n g).flatten (a + 1) (b + 1)).any
        (Expression.eval α) = true ↔ ∃ i j, L i j = a ∧ M i j = b := by
  rw [equalExprs_matrixOf hn, rowPositions, List.any_map, List.any_eq_true]
  simp only [List.mem_range, Function.comp_apply, Expression.eval_and, List.all_cons,
    List.all_nil, Bool.and_true, Bool.and_eq_true]
  rw [exists_div_mod_iff (P := fun i j => (equal ((List.range n).map (f i j)) (a + 1)).eval α =
    true ∧ (equal ((List.range n).map (g i j)) (b + 1)).eval α = true) hn]
  constructor
  · rintro ⟨i, hi, j, hj, ha, hb⟩
    exact ⟨⟨i, hi⟩, ⟨j, hj⟩, (eval_equal_of_oneHot hL ⟨i, hi⟩ ⟨j, hj⟩ a).mp ha,
      (eval_equal_of_oneHot hM ⟨i, hi⟩ ⟨j, hj⟩ b).mp hb⟩
  · rintro ⟨i, j, ha, hb⟩
    exact ⟨i, i.isLt, j, j.isLt, (eval_equal_of_oneHot hL i j a).mpr ha,
      (eval_equal_of_oneHot hM i j b).mpr hb⟩

theorem row_matrixOf {m : Nat} {i : Nat} (hi : i < n) :
    (matrixOf n m q f).getD i [] = (List.range m).map fun j => (List.range q).map (f i j) :=
  getD_map_range _ _ hi

theorem cell_matrixOf {m : Nat} {i j : Nat} (hi : i < n) (hj : j < m) :
    (matrixOf n m q f).cell i j = (List.range q).map (f i j) := by
  rw [Matrix.cell, row_matrixOf hi, getD_map_range _ _ hj]

theorem entry_matrixOf {m : Nat} {i j k : Nat} (hi : i < n) (hj : j < m) (hk : k < q) :
    (matrixOf n m q f).entry i j k = f i j k := by
  rw [Matrix.entry, cell_matrixOf hi hj, getD_map_range _ _ hk]

/-- One clause of `fullyOrthogonalSquare`. -/
def repeatClause (f g : Nat → Nat → Nat → Literal) (i1 i2 j1 j2 k1 k2 : Nat) : Expression :=
  orLiterals [(f i1 j1 k1).not, (f i2 j2 k1).not, (g i1 j1 k2).not, (g i2 j2 k2).not]

theorem mem_fullyOrthogonalSquare {e : Expression} :
    e ∈ ((List.range (matrixOf n n n f).length).flatMap fun i1 =>
      (List.range ((matrixOf n n n f).getD i1 []).length).flatMap fun j1 =>
        (rangeUntil (i1 + 1) (matrixOf n n n f).length).flatMap fun i2 =>
          ((List.range ((matrixOf n n n f).getD i2 []).length).filter (· ≠ j1)).flatMap fun j2 =>
            (List.range ((matrixOf n n n f).cell i1 i2).length).flatMap fun k1 =>
              (List.range ((matrixOf n n n f).cell i1 i2).length).map fun k2 =>
                orLiterals [((matrixOf n n n f).entry i1 j1 k1).not,
                  ((matrixOf n n n f).entry i2 j2 k1).not,
                  ((matrixOf n n n g).entry i1 j1 k2).not,
                  ((matrixOf n n n g).entry i2 j2 k2).not]) ↔
      ∃ i1 i2 j1 j2 k1 k2, i1 < i2 ∧ i2 < n ∧ j1 < n ∧ j2 < n ∧ j2 ≠ j1 ∧ k1 < n ∧ k2 < n ∧
        repeatClause f g i1 i2 j1 j2 k1 k2 = e := by
  have hlength : (matrixOf n n n f).length = n := by simp [matrixOf]
  have hrow : ∀ i < n, ((matrixOf n n n f).getD i []).length = n := by
    intro i hi
    rw [row_matrixOf hi, List.length_map, List.length_range]
  have hcell : ∀ i j, i < n → j < n → ((matrixOf n n n f).cell i j).length = n := by
    intro i j hi hj
    rw [cell_matrixOf hi hj, List.length_map, List.length_range]
  simp only [List.mem_flatMap, List.mem_map, List.mem_range, mem_rangeUntil, List.mem_filter,
    decide_eq_true_eq, hlength]
  constructor
  · rintro ⟨i1, hi1, j1, hj1, i2, ⟨hi12, hi2⟩, j2, ⟨hj2, hj12⟩, k1, hk1, k2, hk2, rfl⟩
    rw [hrow i1 hi1] at hj1
    rw [hrow i2 hi2] at hj2
    rw [hcell i1 i2 hi1 hi2] at hk1 hk2
    refine ⟨i1, i2, j1, j2, k1, k2, by omega, hi2, hj1, hj2, hj12, hk1, hk2, ?_⟩
    rw [entry_matrixOf hi1 hj1 hk1, entry_matrixOf hi2 hj2 hk1, entry_matrixOf hi1 hj1 hk2,
      entry_matrixOf hi2 hj2 hk2, repeatClause]
  · rintro ⟨i1, i2, j1, j2, k1, k2, hi12, hi2, hj1, hj2, hj12, hk1, hk2, rfl⟩
    have hi1 : i1 < n := hi12.trans hi2
    refine ⟨i1, hi1, j1, by rwa [hrow i1 hi1], i2, ⟨hi12, hi2⟩, j2, ⟨by rwa [hrow i2 hi2], hj12⟩,
      k1, by rwa [hcell i1 i2 hi1 hi2], k2, by rwa [hcell i1 i2 hi1 hi2], ?_⟩
    rw [entry_matrixOf hi1 hj1 hk1, entry_matrixOf hi2 hj2 hk1, entry_matrixOf hi1 hj1 hk2,
      entry_matrixOf hi2 hj2 hk2, repeatClause]

theorem eval_repeatClause {i1 i2 j1 j2 k1 k2 : Nat} :
    (repeatClause f g i1 i2 j1 j2 k1 k2).eval α = true ↔
      ¬ ((f i1 j1 k1).eval α = true ∧ (f i2 j2 k1).eval α = true ∧
        (g i1 j1 k2).eval α = true ∧ (g i2 j2 k2).eval α = true) := by
  simp only [repeatClause, eval_orLiterals, List.any_cons, List.any_nil, Bool.or_false,
    Literal.eval_not]
  cases (f i1 j1 k1).eval α <;> cases (f i2 j2 k1).eval α <;> cases (g i1 j1 k2).eval α <;> simp

/-- In one-hot tables, `fullyOrthogonalSquare` forbids repeated pairs. -/
theorem eval_fullyOrthogonalSquare (hL : OneHot (Shows α f) L) (hM : OneHot (Shows α g) M) :
    (fullyOrthogonalSquare (matrixOf n n n f) (matrixOf n n n g)).eval α = true ↔
      ¬ RepeatsPair L M := by
  rw [fullyOrthogonalSquare, Expression.eval_and, List.all_eq_true]
  simp only [mem_fullyOrthogonalSquare]
  constructor
  · intro h hrepeats
    -- of two rows, the upper one is the row of the outer loop
    have hordered : ∀ i₁ i₂ j₁ j₂ : Fin n, i₁ < i₂ → j₁ ≠ j₂ → L i₁ j₁ = L i₂ j₂ →
        M i₁ j₁ = M i₂ j₂ → False := by
      intro i₁ i₂ j₁ j₂ hi hj hl hm
      have hclause := h _ ⟨i₁, i₂, j₁, j₂, L i₁ j₁, M i₁ j₁, hi, i₂.isLt, j₁.isLt, j₂.isLt,
        fun hval => hj (Fin.ext hval.symm), Fin.isLt _, Fin.isLt _, rfl⟩
      refine eval_repeatClause.mp hclause ⟨?_, ?_, ?_, ?_⟩
      · exact (hL i₁ j₁ _).mpr rfl
      · exact (hL i₂ j₂ _).mpr hl.symm
      · exact (hM i₁ j₁ _).mpr rfl
      · exact (hM i₂ j₂ _).mpr hm.symm
    obtain ⟨i₁, i₂, j₁, j₂, hi, hj, hl, hm⟩ := hrepeats
    rcases lt_or_gt_of_ne hi with hlt | hgt
    · exact hordered i₁ i₂ j₁ j₂ hlt hj hl hm
    · exact hordered i₂ i₁ j₂ j₁ hgt hj.symm hl.symm hm.symm
  · rintro h e ⟨i1, i2, j1, j2, k1, k2, hi12, hi2, hj1, hj2, hj12, hk1, hk2, rfl⟩
    rw [eval_repeatClause]
    rintro ⟨ha, ha', hb, hb'⟩
    have hi1 : i1 < n := hi12.trans hi2
    refine h ⟨⟨i1, hi1⟩, ⟨i2, hi2⟩, ⟨j1, hj1⟩, ⟨j2, hj2⟩, ?_, ?_, ?_, ?_⟩
    · exact fun heq => absurd (Fin.ext_iff.mp heq) (by simp; omega)
    · exact fun heq => hj12 (Fin.ext_iff.mp heq).symm
    · rw [(hL ⟨i1, hi1⟩ ⟨j1, hj1⟩ ⟨k1, hk1⟩).mp ha, (hL ⟨i2, hi2⟩ ⟨j2, hj2⟩ ⟨k1, hk1⟩).mp ha']
    · rw [(hM ⟨i1, hi1⟩ ⟨j1, hj1⟩ ⟨k2, hk2⟩).mp hb, (hM ⟨i2, hi2⟩ ⟨j2, hj2⟩ ⟨k2, hk2⟩).mp hb']

/-- The literals of a line of a table. -/
theorem forall_mem_lines {h : Nat → Nat → Literal} {P : Literal → Prop}
    (hP : ∀ j < n, ∀ k < n, P (h j k)) :
    ∀ ls ∈ (List.range n).map fun j => (List.range n).map (h j), ∀ l ∈ ls, P l := by
  simp only [List.forall_mem_map, List.mem_range]
  exact hP

theorem codeLine_proper (hn : 0 < n) {c : Nat} {h : Nat → Nat → Literal}
    (hwithin : ∀ j < n, ∀ k < n, (h j k).Within c) :
    (codeLine ((List.range n).map fun j => (List.range n).map (h j))).Proper c := by
  refine Expression.proper_and fun e he => ?_
  rcases List.mem_pair.mp he with rfl | rfl
  · exact codeSufficient_proper (forall_mem_lines hwithin)
  · rw [transpose_map_range hn]
    exact codeSufficient_proper (forall_mem_lines fun k hk j hj => hwithin j hj k hk)

/-- Lines of a table and of the transposed table. -/
theorem lines_proper (hn : 0 < n) {c : Nat} {h : Nat → Nat → Literal}
    (hwithin : ∀ j < n, ∀ k < n, (h j k).Within c) :
    (codeSufficient
      (transpose ((List.range n).map fun j => (List.range n).map (h j)))).Proper c := by
  rw [transpose_map_range hn]
  exact codeSufficient_proper (forall_mem_lines fun k hk j hj => hwithin j hj k hk)

theorem mem_columns (hn : 0 < n) {e : Expression}
    (he : e ∈ (transpose (matrixOf n n n f)).map fun matrix => codeSufficient (transpose matrix)) :
    ∃ j < n, e = codeSufficient (transpose
      ((List.range n).map fun i => (List.range n).map (f i j))) := by
  rw [matrixOf, transpose_map_range hn] at he
  obtain ⟨matrix, hmatrix, rfl⟩ := List.mem_map.mp he
  obtain ⟨j, hj, rfl⟩ := List.mem_map.mp hmatrix
  exact ⟨j, List.mem_range.mp hj, rfl⟩

theorem latin_proper (hn : 0 < n) {c : Nat}
    (hwithin : ∀ i < n, ∀ j < n, ∀ k < n, (f i j k).Within c) :
    (latin (matrixOf n n n f)).Proper c := by
  refine Expression.proper_and fun e he => ?_
  rcases List.mem_append.mp he with he | he
  · obtain ⟨row, hrow, rfl⟩ := List.mem_map.mp he
    obtain ⟨i, hi, rfl⟩ := List.mem_map.mp hrow
    exact codeLine_proper hn (hwithin i (List.mem_range.mp hi))
  · obtain ⟨j, hj, rfl⟩ := mem_columns hn he
    exact lines_proper hn fun i hi k hk => hwithin i hi j hj k hk

theorem logLatin_proper (hn : 0 < n) {c : Nat}
    (hwithin : ∀ i < n, ∀ j < n, ∀ k < n, (f i j k).Within c) :
    (logLatin (matrixOf n n n f)).Proper c := by
  refine Expression.proper_and fun e he => ?_
  rcases List.mem_append.mp he with he | he
  · obtain ⟨row, hrow, rfl⟩ := List.mem_map.mp he
    obtain ⟨i, hi, rfl⟩ := List.mem_map.mp hrow
    exact lines_proper hn (hwithin i (List.mem_range.mp hi))
  · obtain ⟨j, hj, rfl⟩ := mem_columns hn he
    exact lines_proper hn fun i hi k hk => hwithin i hi j hj k hk

/-- Lines of variables are no `False`. -/
theorem isFalse_lines (hn : 0 < n) {h : Nat → Nat → Literal} {isImportant : Bool}
    (hvariables : ∀ j < n, ∀ k < n, ∃ v, h j k = .var v) :
    (codeSufficient ((List.range n).map fun j => (List.range n).map (h j))
      isImportant).isFalse = false := by
  refine isFalse_codeSufficient fun ls hls => ?_
  refine ⟨?_, forall_mem_lines hvariables ls hls⟩
  obtain ⟨j, -, rfl⟩ := List.mem_map.mp hls
  simp
  omega

theorem isFalse_latin (hn : 0 < n)
    (hvariables : ∀ i < n, ∀ j < n, ∀ k < n, ∃ v, f i j k = .var v) :
    (latin (matrixOf n n n f)).isFalse = false := by
  rw [latin, Expression.isFalse_and, List.any_eq_false]
  intro e he
  rw [Bool.not_eq_true]
  rcases List.mem_append.mp he with he | he
  · obtain ⟨row, hrow, rfl⟩ := List.mem_map.mp he
    obtain ⟨i, hi, rfl⟩ := List.mem_map.mp hrow
    have hi := List.mem_range.mp hi
    rw [codeLine, transpose_map_range hn, Expression.isFalse_and]
    simp only [List.any_cons, List.any_nil, Bool.or_false, Bool.or_eq_false_iff]
    exact ⟨isFalse_lines hn (hvariables i hi),
      isFalse_lines hn fun k hk j hj => hvariables i hi j hj k hk⟩
  · obtain ⟨j, hj, rfl⟩ := mem_columns hn he
    rw [transpose_map_range hn]
    exact isFalse_lines hn fun k hk i hi => hvariables i hi j hj k hk

theorem isFalse_logLatin (hn : 0 < n)
    (hvariables : ∀ i < n, ∀ j < n, ∀ k < n, ∃ v, f i j k = .var v) :
    (logLatin (matrixOf n n n f)).isFalse = false := by
  rw [logLatin, Expression.isFalse_and, List.any_eq_false]
  intro e he
  rw [Bool.not_eq_true]
  rcases List.mem_append.mp he with he | he
  · obtain ⟨row, hrow, rfl⟩ := List.mem_map.mp he
    obtain ⟨i, hi, rfl⟩ := List.mem_map.mp hrow
    rw [transpose_map_range hn]
    exact isFalse_lines hn fun k hk j hj => hvariables i (List.mem_range.mp hi) j hj k hk
  · obtain ⟨j, hj, rfl⟩ := mem_columns hn he
    rw [transpose_map_range hn]
    exact isFalse_lines hn fun k hk i hi => hvariables i hi j hj k hk

end Tables

end LatinSquares.Generator
