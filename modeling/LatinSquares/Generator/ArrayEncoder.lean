/-
# The orthogonal array encoder

`OrthogonalArrayEncoder` lays out one table with `k + 2` rows of `n * n` cells. Every
cell has one symbol, the rows `0` and `1` show all pairs with every later row, and
any two of the others show at least `q`. The formula says of its core variables that
they describe an array, and an array spreads into a family of Latin squares.
-/

import LatinSquares.Generator.Assembly
import LatinSquares.Generator.Pairs
import LatinSquares.Generator.Reduced
import LatinSquares.Generator.Unreduced
import LatinSquares.Math.OrthogonalArray

namespace LatinSquares.Generator

open LatinSquares.Math
open Expression (and)

section Rows

variable {size n q : Nat} {f g : Nat → Nat → Literal} {α : Assignment} {a b : Fin size → Fin n}

/-- The literals of a row of cells show the symbols of `a`. -/
def ShowsRow (α : Assignment) (f : Nat → Nat → Literal) (a : Fin size → Fin n) : Prop :=
  ∀ (p : Fin size) (v : Fin n), (f p v).eval α = true ↔ a p = v

theorem eval_rowPosition (ha : ShowsRow α f a) (hb : ShowsRow α g b) (p : Fin size) (x y : Fin n) :
    (and [equal ((List.range n).map (f p)) (x + 1), equal ((List.range n).map (g p)) (y + 1)]).eval
        α = true ↔ a p = x ∧ b p = y := by
  rw [Expression.eval_and_pair, eval_equal_of_cell (ha p), eval_equal_of_cell (hb p)]

/-- Some position has two symbols exactly when the rows show the pair. -/
theorem any_rowPositions (ha : ShowsRow α f a) (hb : ShowsRow α g b) (x y : Fin n) :
    (rowPositions size n f g (x + 1) (y + 1)).any (Expression.eval α) = true ↔
      ∃ p, a p = x ∧ b p = y := by
  rw [rowPositions, List.any_map, List.any_eq_true]
  constructor
  · rintro ⟨p, hp, h⟩
    exact ⟨⟨p, List.mem_range.mp hp⟩, (eval_rowPosition ha hb ⟨p, List.mem_range.mp hp⟩ x y).mp h⟩
  · rintro ⟨p, h⟩
    exact ⟨p, List.mem_range.mpr p.isLt, (eval_rowPosition ha hb p x y).mpr h⟩

theorem shownPairs_rows (ha : ShowsRow α f a) (hb : ShowsRow α g b) :
    shownPairs n (rowPositions size n f g) α = rowPairCount a b := by
  rw [shownPairs, rowPairCount]
  congr 1
  ext ⟨x, y⟩
  rw [Finset.mem_filter, any_rowPositions ha hb, Finset.mem_image]
  simp

/-- Rows that show a different pair at every position show no pair twice. -/
theorem noTwo_rows (ha : ShowsRow α f a) (hb : ShowsRow α g b)
    (hpairs : Function.Injective fun p => (a p, b p)) {aN bN : Nat} (haN : aN ∈ List.range' 1 n)
    (hbN : bN ∈ List.range' 1 n) :
    NoTwo ((rowPositions size n f g aN bN).map (Expression.eval α)) := by
  obtain ⟨x, rfl⟩ : ∃ x : Fin n, aN = x + 1 := by
    rw [List.mem_range'_1] at haN
    exact ⟨⟨aN - 1, by omega⟩, by simp; omega⟩
  obtain ⟨y, rfl⟩ : ∃ y : Fin n, bN = y + 1 := by
    rw [List.mem_range'_1] at hbN
    exact ⟨⟨bN - 1, by omega⟩, by simp; omega⟩
  rw [NoTwo, rowPositions, List.map_map, List.pairwise_map]
  refine List.nodup_range.pairwise_of_forall_ne fun p hp p' hp' hne htwo => hne ?_
  have hfirst := (eval_rowPosition ha hb ⟨p, List.mem_range.mp hp⟩ x y).mp htwo.1
  have hsecond := (eval_rowPosition ha hb ⟨p', List.mem_range.mp hp'⟩ x y).mp htwo.2
  have hposition := hpairs (Prod.ext (hfirst.1.trans hsecond.1.symm)
    (hfirst.2.trans hsecond.2.symm))
  exact Fin.ext_iff.mp hposition

/-- What `orthogonal` says about two rows with as many positions as there are pairs. -/
theorem pairsShown_rows_iff {f g : Nat → Nat → Literal} {a b : Fin (n * n) → Fin n}
    (ha : ShowsRow α f a) (hb : ShowsRow α g b) :
    PairsShown n q (rowPositions (n * n) n f g) 0 α ↔ q ≤ rowPairCount a b := by
  rw [PairsShown, shownPairs_rows ha hb]
  constructor
  · exact fun h => h.2
  · refine fun h => ⟨fun aN haN bN hbN hlength => ?_, h⟩
    rw [rowPositions, List.length_map, List.length_range] at hlength
    refine noTwo_rows ha hb ?_ haN hbN
    rw [← card_le_rowPairCount_iff, Fintype.card_fin]
    exact hlength.ge.trans h

end Rows

/-- Which entries of the table are constants. -/
def arrayKind (reduced : Bool) (n r c v : Nat) : Option Bool :=
  if reduced then
    if r = 0 then some (v = c / n)
    else if r = 1 then some (v = c % n)
    else none
  else none

theorem mem_coordinatePairs {s : Nat} {p : Nat × Nat} :
    p ∈ coordinatePairs s ↔ p.1 < 2 ∧ p.1 < p.2 ∧ p.2 < s := by
  obtain ⟨i, j⟩ := p
  simp only [coordinatePairs, List.mem_flatMap, List.mem_range, List.mem_map, mem_rangeUntil,
    Prod.mk.injEq]
  constructor
  · rintro ⟨i', hi, j', ⟨hij, hj⟩, rfl, rfl⟩
    exact ⟨hi, hij, hj⟩
  · rintro ⟨hi, hij, hj⟩
    exact ⟨i, hi, j, ⟨hij, hj⟩, rfl, rfl⟩

theorem mem_squareRowPairs {s : Nat} {p : Nat × Nat} :
    p ∈ squareRowPairs s ↔ 2 ≤ p.1 ∧ p.1 < p.2 ∧ p.2 < s := by
  obtain ⟨i, j⟩ := p
  simp only [squareRowPairs, List.mem_flatMap, List.mem_map, mem_rangeUntil, Prod.mk.injEq]
  constructor
  · rintro ⟨i', ⟨hi, -⟩, j', ⟨hij, hj⟩, rfl, rfl⟩
    exact ⟨hi, hij, hj⟩
  · rintro ⟨hi, hij, hj⟩
    exact ⟨i, ⟨hi, hij.trans hj⟩, j, ⟨hij, hj⟩, rfl, rfl⟩

namespace OrthogonalArrayEncoder

variable (e : OrthogonalArrayEncoder)

/-- Entry `v` of cell `c` of row `r`. -/
def entry (r c v : Nat) : Literal :=
  layoutEntry e.s (e.n * e.n) e.n (fun _ => arrayKind e.reduced e.n) 0 r c v

/-- The table. -/
def table : Matrix := matrixOf e.s (e.n * e.n) e.n e.entry

/-- The number of core variables. -/
def coreSize : Nat := layoutSize e.s (e.n * e.n) e.n (fun _ => arrayKind e.reduced e.n) 1

/-- The state after the table has been laid out. -/
def coreState : GenState := { varCounter := e.coreSize }

variable {e}

theorem entry_within {r c v : Nat} (hr : r < e.s) (hc : c < e.n * e.n) (hv : v < e.n) :
    (e.entry r c v).Within e.coreSize :=
  layoutEntry_within Nat.one_pos hr hc hv

theorem ensures_coreVariables :
    Ensures e.coreVariables {} fun core s => core = e.table ∧ s = e.coreState := by
  have hempty : ({} : GenState).varCounter =
      layoutSize e.s (e.n * e.n) e.n (fun _ => arrayKind e.reduced e.n) 0 := by
    simp [layoutSize, variablesBefore]
  rw [coreVariables]
  split
  · next hreduced =>
      refine ensures_table (fun i _ j _ k _ => ?_) hempty
      simp only [arrayKind, hreduced, if_true]
      split_ifs <;> rfl
  · next hreduced =>
      refine ensures_table (fun i _ j _ k _ => ?_) hempty
      simp only [arrayKind, if_neg hreduced]
      rfl

/-- What the constraint on two rows says that asks for `q` pairs. -/
def rowConstraint (e : OrthogonalArrayEncoder) (q : Nat) (p : Nat × Nat) (c : Nat)
    (α : Assignment) : Prop :=
  PairsShown e.n q (rowPositions (e.n * e.n) e.n (e.entry p.1) (e.entry p.2)) c α

/-- The expression the finished formula is cast from. -/
def formula (e : OrthogonalArrayEncoder) (firstPair secondPair : List VariabledExpression) :
    Expression :=
  and [and (e.table.map codeSufficient), and (firstPair.map VariabledExpression.expr),
    and (secondPair.map VariabledExpression.expr)]

/-- The loops over pairs of rows. -/
theorem ensures_rowPairs (order : Order) {q : Nat} {s : GenState} (hn : 2 ≤ e.n)
    (hq : q ≤ e.n * e.n) (hs : e.coreSize ≤ s.varCounter) (pairs : List (Nat × Nat))
    (hpairs : ∀ p ∈ pairs, p.1 < e.s ∧ p.2 < e.s) :
    Ensures (pairs.mapM fun p => orthogonal order (e.table.getD p.1 []) (e.table.getD p.2 []) q) s
      fun rs s' => TightensAll s s' pairs rs (e.n * e.n - q) (e.rowConstraint q) := by
  refine ensures_pairs fun p hp t ht => ?_
  obtain ⟨hi, hj⟩ := hpairs p hp
  rw [table, row_matrixOf hi, row_matrixOf hj]
  exact ensures_orthogonal order hn hq (Nat.mul_pos (by omega) (by omega))
    (fun c hc v hv => (entry_within hi hc hv).mono (hs.trans ht))
    fun c hc v hv => (entry_within hj hc hv).mono (hs.trans ht)

/-- The run of the encoder up to the last cast. -/
theorem program_run (order : Order) (hn : 2 ≤ e.n) (hq : e.q ≤ e.n * e.n) :
    ∃ firstPair secondPair s₁ s₂,
      TightensAll e.coreState s₁ (coordinatePairs e.s) firstPair (e.n * e.n - e.n * e.n)
        (e.rowConstraint (e.n * e.n)) ∧
      TightensAll s₁ s₂ (squareRowPairs e.s) secondPair (e.n * e.n - e.q)
        (e.rowConstraint e.q) ∧
      e.cnf order = (e.formula firstPair secondPair).andArgs?.map fun args =>
        CNF.ofAnd args (List.range' 1 e.coreSize) := by
  obtain ⟨core, s, hcoreRun, rfl, rfl⟩ := ensures_coreVariables (e := e)
  obtain ⟨firstPair, s₁, hfirstRun, hfirst⟩ := ensures_rowPairs order hn le_rfl
    (le_refl e.coreState.varCounter) (coordinatePairs e.s) fun p hp => by
      obtain ⟨-, hij, hj⟩ := mem_coordinatePairs.mp hp
      exact ⟨hij.trans hj, hj⟩
  obtain ⟨secondPair, s₂, hsecondRun, hsecond⟩ := ensures_rowPairs order hn hq hfirst.builds.le
    (squareRowPairs e.s) fun p hp => by
      obtain ⟨-, hij, hj⟩ := mem_squareRowPairs.mp hp
      exact ⟨hij.trans hj, hj⟩
  have hrun : (e.program order).run {} = (e.formula firstPair secondPair).andArgs?.map
      fun args => (CNF.ofAnd args (List.range' 1 e.coreSize), s₂) := by
    rw [program, run_bind_of_run hcoreRun, run_get_bind, run_bind_of_run hfirstRun,
      run_bind_of_run hsecondRun, run_lift_bind, Option.map_eq_bind]
    rfl
  refine ⟨firstPair, secondPair, s₁, s₂, hfirst, hsecond, ?_⟩
  rw [cnf, run'_of_run hrun, Option.map_map]
  rfl

/-- The array the core variables describe. -/
def Describes (e : OrthogonalArrayEncoder) (α : Assignment)
    (A : Fin e.s → Fin (e.n * e.n) → Fin e.n) : Prop :=
  ∀ r : Fin e.s, ShowsRow α (e.entry r) (A r)

theorem describes_dependsUpTo (A : Fin e.s → Fin (e.n * e.n) → Fin e.n) :
    DependsUpTo e.coreSize fun α => e.Describes α A := by
  intro α β hαβ
  refine forall_congr' fun r => forall_congr' fun c => forall_congr' fun v => ?_
  rw [(entry_within r.isLt c.isLt v.isLt).eval_eq hαβ]

theorem eval_lines {α : Assignment} :
    (and (e.table.map codeSufficient)).eval α = true ↔ ∃ A, e.Describes α A := by
  have hcells : (and (e.table.map codeSufficient)).eval α = true ↔
      ∀ (r : Fin e.s) (c : Fin (e.n * e.n)), ∃! v : Fin e.n, (e.entry r c v).eval α = true := by
    rw [Expression.eval_and, List.all_eq_true, List.forall_mem_map, table, matrixOf,
      forall_mem_map_range]
    refine forall_congr' fun r => ?_
    rw [eval_codeSufficient, forall_mem_map_range]
    exact forall_congr' fun c => oneTrue_map_range
  rw [hcells]
  constructor
  · intro h
    choose A hA using h
    exact ⟨A, fun r c v => ⟨fun hv => ((hA r c).2 v hv).symm, fun hv => hv ▸ (hA r c).1⟩⟩
  · rintro ⟨A, hA⟩ r c
    exact ⟨A r c, (hA r c _).mpr rfl, fun v hv => ((hA r c v).mp hv).symm⟩

theorem lines_proper : (and (e.table.map codeSufficient)).Proper e.coreSize := by
  refine Expression.proper_and fun line hline => ?_
  obtain ⟨row, hrow, rfl⟩ := List.mem_map.mp hline
  obtain ⟨r, hr, rfl⟩ := List.mem_map.mp hrow
  refine codeSufficient_proper fun ls hls l hl => ?_
  obtain ⟨c, hc, rfl⟩ := List.mem_map.mp hls
  obtain ⟨v, hv, rfl⟩ := List.mem_map.mp hl
  exact entry_within (List.mem_range.mp hr) (List.mem_range.mp hc) (List.mem_range.mp hv)

/-- The table can describe every array that respects its constants. -/
theorem exists_describes {A : Fin e.s → Fin (e.n * e.n) → Fin e.n}
    (hA : ∀ r c v b, arrayKind e.reduced e.n (r : Fin e.s) (c : Fin (e.n * e.n)) (v : Fin e.n) =
      some b → (A r c = v ↔ b = true)) : ∃ α, e.Describes α A := by
  obtain ⟨α, hα⟩ := exists_layout_eval (fun _ => arrayKind e.reduced e.n) 1 e.s (e.n * e.n) e.n
    (fun _ r c v =>
      if h : r < e.s ∧ c < e.n * e.n ∧ v < e.n then
        decide (A ⟨r, h.1⟩ ⟨c, h.2.1⟩ = ⟨v, h.2.2⟩)
      else false) (fun _ _ r hr c hc v hv b hb => by
        rw [dif_pos ⟨hr, hc, hv⟩, Bool.eq_iff_iff, decide_eq_true_iff]
        exact hA ⟨r, hr⟩ ⟨c, hc⟩ ⟨v, hv⟩ b hb)
  refine ⟨α, fun r c v => ?_⟩
  rw [entry, hα 0 Nat.one_pos r r.isLt c c.isLt v v.isLt, dif_pos ⟨r.isLt, c.isLt, v.isLt⟩,
    decide_eq_true_iff]

/-- An array whose coordinate rows number the cells row by row can always be described. -/
theorem exists_describes_numbering {A : Fin e.s → Fin (e.n * e.n) → Fin e.n}
    (hrow : ∀ r : Fin e.s, (r : Nat) = 0 → ∀ c, (A r c : Nat) = c / e.n)
    (hcolumn : ∀ r : Fin e.s, (r : Nat) = 1 → ∀ c, (A r c : Nat) = c % e.n) :
    ∃ α, e.Describes α A := by
  refine exists_describes fun r c v b hb => ?_
  rw [arrayKind] at hb
  split_ifs at hb with hreduced hr hr
  · obtain rfl := Option.some.inj hb
    rw [decide_eq_true_iff, Fin.ext_iff, hrow r hr]
    exact eq_comm
  · obtain rfl := Option.some.inj hb
    rw [decide_eq_true_iff, Fin.ext_iff, hcolumn r hr]
    exact eq_comm

/-- On a described array the constraints bound the numbers of pairs shown. -/
theorem rowConstraints_iff {α : Assignment} {A : Fin e.s → Fin (e.n * e.n) → Fin e.n}
    (hA : e.Describes α A) : ((∀ p ∈ coordinatePairs e.s, e.rowConstraint (e.n * e.n) p 0 α) ∧
        ∀ p ∈ squareRowPairs e.s, e.rowConstraint e.q p 0 α) ↔
      ShowsPairs (e.n * e.n) e.q A := by
  have hpair : ∀ (q : Nat) (i j : Fin e.s), e.rowConstraint q (i, j) 0 α ↔
      q ≤ rowPairCount (A i) (A j) := fun q i j => pairsShown_rows_iff (hA i) (hA j)
  constructor
  · rintro ⟨hcoordinate, hother⟩
    constructor
    · intro i j hi hij
      exact (hpair _ i j).mp (hcoordinate (i, j) (mem_coordinatePairs.mpr ⟨hi, hij, j.isLt⟩))
    · intro i j hi hij
      exact (hpair _ i j).mp (hother (i, j) (mem_squareRowPairs.mpr ⟨hi, hij, j.isLt⟩))
  · rintro ⟨hcoordinate, hother⟩
    constructor
    · rintro ⟨i, j⟩ hp
      obtain ⟨hi, hij, hj⟩ := mem_coordinatePairs.mp hp
      exact (hpair _ ⟨i, hij.trans hj⟩ ⟨j, hj⟩).mpr (hcoordinate _ _ hi hij)
    · rintro ⟨i, j⟩ hp
      obtain ⟨hi, hij, hj⟩ := mem_squareRowPairs.mp hp
      exact (hpair _ ⟨i, hij.trans hj⟩ ⟨j, hj⟩).mpr (hother _ _ hi hij)

/-- The finished formula, projected to the core variables: they describe an array. -/
theorem formula_projects {firstPair secondPair : List VariabledExpression} {s₁ s₂ : GenState}
    {K : Nat} (hfirst : TightensAll e.coreState s₁ (coordinatePairs e.s) firstPair K
      (e.rowConstraint (e.n * e.n)))
    {K' : Nat} (hsecond : TightensAll s₁ s₂ (squareRowPairs e.s) secondPair K'
      (e.rowConstraint e.q)) :
    Projects e.coreSize s₂.varCounter (fun α => (e.formula firstPair secondPair).eval α = true)
      fun α => ∃ A, e.Describes α A ∧ ShowsPairs (e.n * e.n) e.q A := by
  have hlines : Projects e.coreSize e.coreState.varCounter
      (fun α => (and (e.table.map codeSufficient)).eval α = true)
      fun α => (and (e.table.map codeSufficient)).eval α = true :=
    Projects.refl lines_proper.dependsUpTo
  have hfamily : DependsUpTo e.coreSize fun α => ∃ A, e.Describes α A ∧
      ShowsPairs (e.n * e.n) e.q A :=
    DependsUpTo.exists_ fun A => (describes_dependsUpTo A).and (DependsUpTo.const _ _)
  have hstages := (hlines.and hfirst.projects_zero hfirst.projects_zero.base).bind
    hsecond.projects_zero hfamily ?_
  · refine hstages.congr (fun α => ?_) fun α => ?_
    · rw [formula, Expression.eval_and]
      simp [and_assoc]
    · constructor
      · exact fun h => h.2
      · rintro ⟨A, hA, hpairs⟩
        exact ⟨⟨eval_lines.mpr ⟨A, hA⟩, ((rowConstraints_iff hA).mpr hpairs).1⟩, A, hA, hpairs⟩
  · rintro α ⟨hlinesα, hfirstα⟩
    obtain ⟨A, hA⟩ := eval_lines.mp hlinesα
    have hcoordinate := hfirst.projects_zero.sound α hfirstα
    constructor
    · exact fun hother => ⟨A, hA, (rowConstraints_iff hA).mp ⟨hcoordinate, hother⟩⟩
    · rintro ⟨A', hA', hpairs⟩
      exact ((rowConstraints_iff hA').mpr hpairs).2

/-- The formula is a conjunction of clauses: some array of symbols respects the
constants, and with every variable false row `2` has no symbols. -/
theorem andArgs?_formula (hn : 0 < e.n) (hs : 2 < e.s)
    {firstPair secondPair : List VariabledExpression}
    (hfirst : ∀ r ∈ firstPair, r.expr.isFalse = false)
    (hsecond : ∀ r ∈ secondPair, r.expr.isFalse = false) :
    ∃ args, (e.formula firstPair secondPair).andArgs? = some args ∧
      e.formula firstPair secondPair = .conj args := by
  have hlines : (and (e.table.map codeSufficient)).isFalse = false := by
    obtain ⟨α, hα⟩ := exists_describes_numbering (e := e)
      (A := fun r c => if (r : Nat) = 0 then ⟨c / e.n, Nat.div_lt_of_lt_mul c.isLt⟩
        else ⟨c % e.n, Nat.mod_lt _ hn⟩)
      (fun r hr c => by simp [hr]) (fun r hr c => by simp [hr])
    exact Expression.isFalse_of_eval (eval_lines.mpr ⟨_, hα⟩)
  have hpairs : ∀ rs : List VariabledExpression, (∀ r ∈ rs, r.expr.isFalse = false) →
      (and (rs.map VariabledExpression.expr)).isFalse = false := by
    intro rs hrs
    rw [Expression.isFalse_and, List.any_eq_false, List.forall_mem_map]
    intro r hr
    rw [hrs r hr]
    simp
  have hfalsified : (e.formula firstPair secondPair).eval (fun _ => false) = false := by
    rw [Bool.eq_false_iff]
    intro hformula
    rw [formula, Expression.eval_and, List.all_eq_true] at hformula
    obtain ⟨A, hA⟩ := eval_lines.mp (hformula _ (List.mem_cons_self ..))
    have hcell := (hA ⟨2, hs⟩ ⟨0, Nat.mul_pos hn hn⟩ _).mpr rfl
    rw [entry, layoutEntry, numbered, byIndex_apply hs (Nat.mul_pos hn hn) (Fin.isLt _)] at hcell
    simp [arrayKind] at hcell
  exact andArgs?_and (by simp [hlines, hpairs _ hfirst, hpairs _ hsecond]) hfalsified

/-- The formula over its core variables. -/
theorem exists_cnf (order : Order) (hn : 2 ≤ e.n) (hs : 2 < e.s) (hq : e.q ≤ e.n * e.n) :
    ∃ f c, e.cnf order = some f ∧ e.coreVariables.run {} = some (e.table, e.coreState) ∧
      Projects e.coreSize c f.Holds
        fun α => ∃ A, e.Describes α A ∧ ShowsPairs (e.n * e.n) e.q A := by
  obtain ⟨firstPair, secondPair, s₁, s₂, hfirst, hsecond, hcnf⟩ := program_run order hn hq
  obtain ⟨args, hargs, hconj⟩ := andArgs?_formula (e := e) (by omega) hs
    (fun r hr => hfirst.builds.notFalse _ (List.mem_map_of_mem hr))
    fun r hr => hsecond.builds.notFalse _ (List.mem_map_of_mem hr)
  obtain ⟨core, s, hrun, rfl, rfl⟩ := ensures_coreVariables (e := e)
  refine ⟨CNF.ofAnd args (List.range' 1 e.coreSize), s₂.varCounter, by rw [hcnf, hargs]; rfl, hrun,
    (formula_projects hfirst hsecond).congr (fun α => ?_) fun _ => Iff.rfl⟩
  rw [hconj]
  exact (holds_iff_conj rfl).symm

end OrthogonalArrayEncoder

end LatinSquares.Generator
