/-
# The logarithmic encoder

`LogLatinSquareEncoder` stores the symbol of a cell in binary and introduces an
indicator for every cell and symbol. The indicators are defined by the bits, and
everything else is said about them; no clause forbids an unused code, which
follows from the Latin constraints on the indicators. The indicators are projected
away together with all other auxiliary variables.
-/

import LatinSquares.Generator.Assembly
import LatinSquares.Generator.Pairs

namespace LatinSquares.Generator

open LatinSquares.Math
open Expression (and)

section Binary

variable {b : Nat} {h : Nat → Literal} {α : Assignment}

/-- The number the literals of a cell stand for, lowest bit first. -/
def cellNumber (b : Nat) (h : Nat → Literal) (α : Assignment) : Nat :=
  Nat.ofBits fun bit : Fin b => (h bit).eval α

/-- A cell has a value that has few enough bits when it has all of them. -/
theorem cellNumber_eq_iff {value : Nat} (hvalue : value < 2 ^ b) :
    cellNumber b h α = value ↔ ∀ bit < b, (h bit).eval α = value.testBit bit := by
  constructor
  · rintro rfl bit hlt
    rw [cellNumber, Nat.testBit_ofBits_lt _ _ hlt]
  · intro hbits
    refine Nat.eq_of_testBit_eq fun bit => ?_
    by_cases hlt : bit < b
    · rw [cellNumber, Nat.testBit_ofBits_lt _ _ hlt]
      exact hbits bit hlt
    · have hpow : 2 ^ b ≤ 2 ^ bit := Nat.pow_le_pow_right (by omega) (by omega)
      have hnumber : cellNumber b h α < 2 ^ b := Nat.ofBits_lt_two_pow _
      rw [Nat.testBit_lt_two_pow (hvalue.trans_le hpow),
        Nat.testBit_lt_two_pow (hnumber.trans_le hpow)]

/-- `logEqual` compares the number of a cell with a value that has few enough bits. -/
theorem eval_logEqual {value : Nat} (hvalue : value < 2 ^ b) :
    (logEqual ((List.range b).map h) value).eval α = true ↔ cellNumber b h α = value := by
  rw [logEqual, mapIdx_map_range, Expression.eval_and, List.all_eq_true, List.forall_mem_map,
    cellNumber_eq_iff hvalue]
  have hbit : ∀ bit, (Expression.literal (if (value >>> bit) % 2 = 1 then h bit
      else (h bit).not)).eval α = true ↔ (h bit).eval α = value.testBit bit := by
    intro bit
    rw [Nat.testBit_eq_decide_div_mod_eq, ← Nat.shiftRight_eq_div_pow]
    by_cases hset : (value >>> bit) % 2 = 1 <;> simp [hset]
  simp only [hbit, List.mem_range]

theorem logEqual_definable {c value : Nat} (hh : ∀ bit < b, (h bit).Within c) :
    (logEqual ((List.range b).map h) value).Definable c := by
  rw [logEqual, mapIdx_map_range]
  refine Expression.definable_and (fun e he => ?_) fun e he => ?_
  · obtain ⟨bit, hbit, rfl⟩ := List.mem_map.mp he
    have hwithin := hh bit (List.mem_range.mp hbit)
    refine Expression.proper_literal ?_
    split
    · exact hwithin
    · exact Literal.within_not.mpr hwithin
  · obtain ⟨bit, -, rfl⟩ := List.mem_map.mp he
    exact Expression.ofLiterals_literal _

/-- Every symbol has a code. -/
theorem le_two_pow_log2 (n : Nat) : n ≤ 2 ^ log2 n := by
  rw [log2]
  split
  · next hpow => rw [Nat.add_zero, ← hpow]
  · exact Nat.lt_log2_self.le

end Binary

/-- Which bits of the cells are constants. -/
def logKind (reduced : Bool) (t i j bit : Nat) : Option Bool :=
  if reduced then
    if t = 0 then
      if i = 0 then some ((j >>> bit) % 2 = 1)
      else if j = 0 then some ((i >>> bit) % 2 = 1)
      else none
    else if j = 0 then some ((i >>> bit) % 2 = 1)
    else none
  else none

namespace LogLatinSquareEncoder

variable (e : LogLatinSquareEncoder)

/-- Bit `bit` of cell `(i, j)` of table `t`. -/
def bit (t i j bit : Nat) : Literal :=
  layoutEntry e.n e.n (log2 e.n) (logKind e.reduced) t i j bit

/-- The counter once `t` tables of bits have been laid out. -/
def tablesSize (t : Nat) : Nat := layoutSize e.n e.n (log2 e.n) (logKind e.reduced) t

/-- The number of core variables. -/
def coreSize : Nat := e.tablesSize e.k

/-- The table of bits of square `t`. -/
def table (t : Nat) : Matrix := matrixOf e.n e.n (log2 e.n) (e.bit t)

/-- The indicator of symbol `v` in cell `(i, j)` of square `t`. -/
def indicator (t i j v : Nat) : Nat :=
  e.coreSize + (t * (e.n * e.n * e.n) + ((i * e.n + j) * e.n + v)) + 1

/-- The table of indicators of square `t`. -/
def indicatorTable (t : Nat) : Matrix :=
  matrixOf e.n e.n e.n fun i j v => .var (e.indicator t i j v)

/-- The tables of indicators. -/
def indicatorTables : List Matrix := (List.range e.k).map e.indicatorTable

/-- The state once the bits and the indicators have been given out. -/
def indicatorState : GenState := { varCounter := e.coreSize + e.k * (e.n * e.n * e.n) }

variable {e}

section Allocation

variable {s : GenState}

/-- The first table of a reduced encoder. -/
theorem ensures_firstTable (hreduced : e.reduced = true) (hs : s.varCounter = 0) :
    Ensures (initFirstReducedLogMatrix e.n e.n (log2 e.n)) s fun M s' =>
      M = e.table 0 ∧ s' = { s with varCounter := e.tablesSize 1 } := by
  refine ensures_table (fun i _ j _ k _ => ?_) (by simp [hs, layoutSize, variablesBefore])
  simp only [logKind, hreduced, if_true]
  split_ifs <;> rfl

/-- The other tables of a reduced encoder. -/
theorem ensures_laterTables (hreduced : e.reduced = true) (hs : s.varCounter = e.tablesSize 1)
    {length : Nat} :
    Ensures ((List.range' 1 length).mapM fun _ => initReducedLogMatrix e.n e.n (log2 e.n)) s
      fun Ms s' => Ms = (List.range' 1 length).map e.table ∧
        s' = { s with varCounter := e.tablesSize (1 + length) } := by
  refine ensures_mapM_range' hs fun t ht _ s hs => ensures_table (fun i _ j _ k _ => ?_) hs
  simp only [logKind, hreduced, if_true, if_neg (by omega : ¬ t = 0)]
  split_ifs <;> rfl

/-- The tables of an unreduced encoder. -/
theorem ensures_unreducedTables (hreduced : e.reduced = false) (hs : s.varCounter = 0) :
    Ensures ((List.range e.k).mapM fun _ => initMatrix e.n e.n (log2 e.n)) s fun Ms s' =>
      Ms = (List.range e.k).map e.table ∧ s' = { s with varCounter := e.coreSize } := by
  refine ensures_mapM_range (c := e.tablesSize)
    (by simp [hs, tablesSize, layoutSize, variablesBefore]) fun t _ s hs =>
    ensures_table (fun i _ j _ k _ => ?_) hs
  simp only [logKind, hreduced]
  rfl

end Allocation

theorem ensures_coreVariables (hk : 0 < e.k) :
    Ensures e.coreVariables {} fun core s => core = (List.range e.k).map e.table ∧
      s = { varCounter := e.coreSize } := by
  rw [coreVariables]
  split
  · next hreduced =>
      refine (ensures_firstTable hreduced rfl).bind ?_
      rintro first s ⟨rfl, rfl⟩
      refine (ensures_laterTables hreduced rfl).bind ?_
      rintro others s ⟨rfl, rfl⟩
      have hlast : 1 + (e.k - 1) = e.k := by omega
      refine Ensures.of_pure ⟨?_, ?_⟩
      · rw [range_eq_zero_cons hk, List.map_cons, rangeUntil]
      · rw [hlast]
        rfl
  · next hreduced => exact ensures_unreducedTables (by simpa using hreduced) rfl

theorem ensures_indicators :
    Ensures ((List.range e.k).mapM fun _ => initMatrix e.n e.n e.n)
      { varCounter := e.coreSize } fun tables s =>
        tables = e.indicatorTables ∧ s = e.indicatorState := by
  refine ensures_mapM_range (c := fun t => e.coreSize + t * (e.n * e.n * e.n)) (by simp)
    fun t _ s hs => ?_
  have htable : Ensures (initMatrix e.n e.n e.n) s fun M s' =>
      M = matrixOf e.n e.n e.n (fun i j v => numbered (fun _ => none) e.coreSize
          (t * (e.n * e.n * e.n) + (i * e.n + j) * e.n + v)) ∧
        s' = { s with varCounter := e.coreSize +
          variablesBefore (fun _ => none) (t * (e.n * e.n * e.n) + e.n * e.n * e.n) } :=
    ensures_listOfLists (fun i _ j _ v _ => rfl) (by rw [hs, variablesBefore_none])
  refine htable.mono ?_
  rintro M s' ⟨rfl, rfl⟩
  constructor
  · simp only [numbered_none, indicatorTable, indicator, Nat.add_assoc]
  · rw [variablesBefore_none, Nat.add_mul, Nat.one_mul]

theorem bit_within {t i j b : Nat} (ht : t < e.k) (hi : i < e.n) (hj : j < e.n)
    (hb : b < log2 e.n) : (e.bit t i j b).Within e.coreSize :=
  layoutEntry_within ht hi hj hb

theorem indicator_scope {t i j v : Nat} (ht : t < e.k) (hi : i < e.n) (hj : j < e.n)
    (hv : v < e.n) :
    1 ≤ e.indicator t i j v ∧ e.indicator t i j v ≤ e.indicatorState.varCounter := by
  have hindex := layout_index_lt ht hi hj hv
  simp only [indicator, indicatorState]
  omega

/-- The number stored in a cell. -/
def number (e : LogLatinSquareEncoder) (α : Assignment) (t i j : Nat) : Nat :=
  cellNumber (log2 e.n) (e.bit t i j) α

/-- The indicators have the values the bits give them. -/
def IndicatorsDefined (e : LogLatinSquareEncoder) (α : Assignment) : Prop :=
  ∀ t < e.k, ∀ i < e.n, ∀ j < e.n, ∀ v < e.n,
    α (e.indicator t i j v) = true ↔ e.number α t i j = v

/-- The definition of one indicator. -/
def indicatorDefinition (e : LogLatinSquareEncoder) (t i j v : Nat) : Nat × Expression :=
  (e.indicator t i j v, logEqual ((List.range (log2 e.n)).map (e.bit t i j)) v)

theorem ensures_ceitinEqExprs {s : GenState} (hs : e.indicatorState.varCounter ≤ s.varCounter) :
    Ensures (e.ceitinEqExprs e.indicatorTables ((List.range e.k).map e.table)) s fun r s' =>
      Builds s s' [r] ((List.range e.k).flatMap fun t => (List.range e.n).flatMap fun i =>
          (List.range e.n).flatMap fun j => (List.range e.n).map fun v => e.indicator t i j v) ∧
        s'.varCounter = s.varCounter ∧ ∀ α, r.eval α = true ↔ e.IndicatorsDefined α := by
  have hdefines : Ensures (e.ceitinEqExprs e.indicatorTables ((List.range e.k).map e.table)) s
      fun r s' => Defines s s' [r] ((List.range e.k).flatMap fun t =>
        (List.range e.n).flatMap fun i => (List.range e.n).flatMap fun j =>
          (List.range e.n).flatMap fun v => [e.indicatorDefinition t i j v]) := by
    refine (ensures_mapM_defines fun t ht s₁ hs₁ => ?_).bind fun _ _ h => Ensures.of_pure h
    refine (ensures_mapM_defines fun i hi s₂ hs₂ => ?_).bind fun _ _ h => Ensures.of_pure h
    refine (ensures_mapM_defines fun j hj s₃ hs₃ => ?_).bind fun _ _ h => Ensures.of_pure h
    refine (ensures_mapM_defines fun v hv s₄ hs₄ => ?_).bind fun _ _ h => Ensures.of_pure h
    rw [List.mem_range] at ht hi hj hv
    have hentry : (e.indicatorTables.getD t []).entry i j v = .var (e.indicator t i j v) := by
      rw [indicatorTables, getD_map_range _ _ ht, indicatorTable, entry_matrixOf hi hj hv]
    have hcell : (((List.range e.k).map e.table).getD t []).cell i j =
        (List.range (log2 e.n)).map (e.bit t i j) := by
      rw [getD_map_range _ _ ht, table, cell_matrixOf hi hj]
    have hscope := indicator_scope ht hi hj hv
    rw [hentry, hcell]
    refine ensures_iff ⟨hscope.1, by omega⟩ (logEqual_definable fun b hb => ?_)
    refine (bit_within ht hi hj hb).mono ?_
    have hcore : e.coreSize ≤ e.indicatorState.varCounter := Nat.le_add_right _ _
    omega
  refine hdefines.mono fun r s' h => ⟨?_, h.counter, fun α => ?_⟩
  · have hbuilds := h.builds [r] h.proper h.notFalse
      fun α hα e he => Expression.ignoredHold_of_eval (hα e he)
    simpa [List.map_flatMap, indicatorDefinition, ← List.map_eq_flatMap, Function.comp_def]
      using hbuilds
  · have heval := h.eval α
    simp only [List.mem_singleton, forall_eq, List.mem_flatMap, List.mem_range] at heval
    rw [heval]
    constructor
    · intro hdefined t ht i hi j hj v hv
      have hvalue := hdefined _ ⟨t, ht, i, hi, j, hj, v, hv, rfl⟩
      rw [indicatorDefinition] at hvalue
      rw [hvalue, eval_logEqual (hv.trans_le (le_two_pow_log2 e.n))]
      rfl
    · rintro hdefined d ⟨t, ht, i, hi, j, hj, v, hv, rfl⟩
      rw [indicatorDefinition, Bool.eq_iff_iff,
        eval_logEqual (hv.trans_le (le_two_pow_log2 e.n))]
      exact hdefined t ht i hi j hj v hv

/-- What the constraint on the squares `p.1` and `p.2` says after `c` tightenings. -/
def pairConstraint (e : LogLatinSquareEncoder) (p : Nat × Nat) (c : Nat) (α : Assignment) : Prop :=
  PairConstraint e.n e.q
    (indicatorPositions e.n (fun i j v => .var (e.indicator p.1 i j v))
      fun i j v => .var (e.indicator p.2 i j v))
    (fun i j v => .var (e.indicator p.1 i j v)) (fun i j v => .var (e.indicator p.2 i j v)) c α

/-- The expression the finished formula is cast from. -/
def formula (e : LogLatinSquareEncoder) (breaking ceitinEq : Expression)
    (ortho : List VariabledExpression) : Expression :=
  and [and [and [ceitinEq, and (e.indicatorTables.map logLatin)],
    and (ortho.map VariabledExpression.expr)], breaking]

/-- The formula object for the arguments of a successful cast. -/
def result (e : LogLatinSquareEncoder) (ortho : List VariabledExpression) (nodes : List Node)
    (args : List Conjunct) : CNF :=
  CNF.ofAnd args (List.range' 1 e.coreSize) []
    (transpose (ortho.map VariabledExpression.vars)).flatten nodes

/-- The loop over the pairs of squares. -/
theorem ensures_squarePairs (hn : 2 ≤ e.n) (hq : e.q ≤ e.n * e.n) {s : GenState}
    (hs : e.indicatorState.varCounter ≤ s.varCounter) :
    Ensures ((squarePairs e.k).mapM fun p =>
      orthogonalLogSquare (e.indicatorTables.getD p.1 []) (e.indicatorTables.getD p.2 []) e.q) s
        fun ortho s' => TightensAll s s' (squarePairs e.k) ortho (e.n * e.n - e.q)
          e.pairConstraint := by
  refine ensures_pairs fun p hp t ht => ?_
  obtain ⟨hij, hj⟩ := mem_squarePairs.mp hp
  have hvariable : ∀ u < e.k, ∀ i < e.n, ∀ j < e.n, ∀ v < e.n, ∃ x,
      Literal.var (e.indicator u i j v) = .var x ∧ 1 ≤ x ∧ x ≤ t.varCounter := by
    intro u hu i hi j hj v hv
    have hscope := indicator_scope hu hi hj hv
    exact ⟨_, rfl, hscope.1, hscope.2.trans (hs.trans ht)⟩
  have htable : ∀ u < e.k, e.indicatorTables.getD u [] = e.indicatorTable u :=
    fun u hu => getD_map_range _ _ hu
  show Ensures (orthogonalLogSquare (e.indicatorTables.getD p.1 [])
    (e.indicatorTables.getD p.2 []) e.q) t _
  rw [htable _ (hij.trans hj), htable _ hj]
  exact ensures_orthogonalLogSquare hn hq (hvariable _ (hij.trans hj)) (hvariable _ hj)

/-- The run of the encoder up to the last cast, when the symmetry-breaking step
returns a formula that projects to `B`. -/
theorem program_run (hn : 2 ≤ e.n) (hk : 2 ≤ e.k) (hq : e.q ≤ e.n * e.n)
    {B : Assignment → Prop}
    (hsymmetry : Ensures (e.symmetry e.indicatorTables) e.indicatorState fun breaking s =>
      Builds e.indicatorState s [breaking] [] ∧
        Projects e.indicatorState.varCounter s.varCounter (fun α => breaking.eval α = true) B) :
    ∃ breaking ceitinEq ortho s₁ s₂,
      breaking.isFalse = false ∧ ceitinEq.isFalse = false ∧
      Projects e.indicatorState.varCounter s₁.varCounter (fun α => breaking.eval α = true) B ∧
      (∀ α, ceitinEq.eval α = true ↔ e.IndicatorsDefined α) ∧
      TightensAll s₁ s₂ (squarePairs e.k) ortho (e.n * e.n - e.q) e.pairConstraint ∧
      e.cnf = (e.formula breaking ceitinEq ortho).andArgs?.map (e.result ortho s₂.nodes) := by
  obtain ⟨core, s, hcoreRun, rfl, rfl⟩ := ensures_coreVariables (e := e) (by omega)
  obtain ⟨tables, s, htablesRun, rfl, rfl⟩ := ensures_indicators (e := e)
  obtain ⟨breaking, s₀, hbreakingRun, hbreaking, hprojects⟩ := hsymmetry
  obtain ⟨ceitinEq, s₁, hceitinRun, hceitin, hcounter, hdefined⟩ :=
    ensures_ceitinEqExprs hbreaking.le
  have hle : e.indicatorState.varCounter ≤ s₁.varCounter := by
    rw [hcounter]
    exact hbreaking.le
  obtain ⟨ortho, s₂, horthoRun, hortho⟩ := ensures_squarePairs hn hq hle
  have hne : ortho ≠ [] := by
    rw [← List.length_pos_iff, hortho.length, List.length_pos_iff]
    exact squarePairs_ne_nil hk
  have hrun : e.program.run {} = (e.formula breaking ceitinEq ortho).andArgs?.map fun args =>
      (e.result ortho s₂.nodes args, s₂) := by
    rw [program, run_bind_of_run hcoreRun, run_get_bind, run_bind_of_run htablesRun,
      run_bind_of_run hbreakingRun, run_bind_of_run hceitinRun, run_bind_of_run horthoRun,
      run_guard_bind hne, run_lift_bind, Option.map_eq_bind]
    rfl
  refine ⟨breaking, ceitinEq, ortho, s₁, s₂, hbreaking.notFalse _ (List.mem_singleton.mpr rfl),
    hceitin.notFalse _ (List.mem_singleton.mpr rfl), ?_, hdefined, hortho, ?_⟩
  · rw [hcounter]
    exact hprojects
  · rw [cnf, run'_of_run hrun, Option.map_map]
    rfl

/-- The squares the indicators describe. -/
def Indicates (e : LogLatinSquareEncoder) (α : Assignment) (F : Fin e.k → Square (Fin e.n)) :
    Prop :=
  ∀ t : Fin e.k, OneHot (Shows α fun i j v => .var (e.indicator t i j v)) (F t)

/-- The squares the bits describe. -/
def Stores (e : LogLatinSquareEncoder) (α : Assignment) (F : Fin e.k → Square (Fin e.n)) : Prop :=
  ∀ (t : Fin e.k) (i j : Fin e.n), e.number α t i j = F t i j

/-- Where the indicators are defined by the bits, both describe the same squares. -/
theorem indicates_iff_stores {α : Assignment} (hα : e.IndicatorsDefined α)
    {F : Fin e.k → Square (Fin e.n)} : e.Indicates α F ↔ e.Stores α F := by
  have hdefined : ∀ (t : Fin e.k) (i j v : Fin e.n),
      α (e.indicator t i j v) = true ↔ e.number α t i j = v :=
    fun t i j v => hα t t.isLt i i.isLt j j.isLt v v.isLt
  constructor
  · intro h t i j
    have hcell := (h t i j (F t i j)).mpr rfl
    exact (hdefined t i j _).mp hcell
  · intro h t i j v
    show α (e.indicator t i j v) = true ↔ _
    rw [hdefined, h, Fin.ext_iff]

theorem eval_lines (hn : 0 < e.n) {α : Assignment} (hα : e.IndicatorsDefined α) :
    (and (e.indicatorTables.map logLatin)).eval α = true ↔
      ∃ F, e.Indicates α F ∧ ∀ t, IsLatin (F t) := by
  rw [Expression.eval_and, List.all_eq_true, List.forall_mem_map, indicatorTables,
    forall_mem_map_range]
  have htable : ∀ t : Fin e.k, (logLatin (e.indicatorTable t)).eval α = true ↔
      ∃ L : Square (Fin e.n), IsLatin L ∧
        OneHot (Shows α fun i j v => .var (e.indicator t i j v)) L := by
    intro t
    refine eval_logLatin hn fun i j v v' hv hv' => Fin.ext ?_
    have hnumber := (hα t t.isLt i i.isLt j j.isLt v v.isLt).mp hv
    have hnumber' := (hα t t.isLt i i.isLt j j.isLt v' v'.isLt).mp hv'
    exact hnumber.symm.trans hnumber'
  simp only [htable, Indicates]
  rw [Classical.skolem]
  exact exists_congr fun F => ⟨fun h => ⟨fun t => (h t).2, fun t => (h t).1⟩,
    fun h t => ⟨h.2 t, h.1 t⟩⟩

theorem Indicates.unique {α : Assignment} {F G : Fin e.k → Square (Fin e.n)}
    (hF : e.Indicates α F) (hG : e.Indicates α G) : F = G :=
  funext fun t => (hF t).unique (hG t)

theorem coreSize_le : e.coreSize ≤ e.indicatorState.varCounter := Nat.le_add_right _ _

theorem number_eq {t i j : Nat} (ht : t < e.k) (hi : i < e.n) (hj : j < e.n) {α β : Assignment}
    (hαβ : AgreeUpTo e.coreSize α β) : e.number β t i j = e.number α t i j := by
  rw [number, number, cellNumber, cellNumber]
  congr 1
  funext b
  exact (bit_within ht hi hj b.isLt).eval_eq hαβ

theorem stores_dependsUpTo (F : Fin e.k → Square (Fin e.n)) :
    DependsUpTo e.coreSize fun α => e.Stores α F := by
  intro α β hαβ
  refine forall_congr' fun t => forall_congr' fun i => forall_congr' fun j => ?_
  rw [number_eq t.isLt i.isLt j.isLt hαβ]

theorem indicatorsDefined_dependsUpTo :
    DependsUpTo e.indicatorState.varCounter e.IndicatorsDefined := by
  intro α β hαβ
  refine forall_congr' fun t => forall_congr' fun ht => forall_congr' fun i =>
    forall_congr' fun hi => forall_congr' fun j => forall_congr' fun hj => forall_congr' fun v =>
      forall_congr' fun hv => ?_
  rw [hαβ _ (indicator_scope ht hi hj hv).2, number_eq ht hi hj (hαβ.mono coreSize_le)]

theorem indicates_dependsUpTo (F : Fin e.k → Square (Fin e.n)) :
    DependsUpTo e.indicatorState.varCounter fun α => e.Indicates α F := by
  intro α β hαβ
  refine forall_congr' fun t => forall_congr' fun i => forall_congr' fun j =>
    forall_congr' fun v => ?_
  rw [Shows, Shows, Literal.eval_var, Literal.eval_var,
    hαβ _ (indicator_scope t.isLt i.isLt j.isLt v.isLt).2]

/-- The bits can store every family that respects their constants. -/
theorem exists_stores {F : Fin e.k → Square (Fin e.n)}
    (hF : ∀ (t : Fin e.k) (i j : Fin e.n) (bit : Nat) (b : Bool),
      logKind e.reduced t i j bit = some b → (F t i j : Nat).testBit bit = b) :
    ∃ α, e.Stores α F := by
  obtain ⟨α, hα⟩ := exists_layout_eval (logKind e.reduced) e.k e.n e.n (log2 e.n)
    (fun t i j bit =>
      if h : t < e.k ∧ i < e.n ∧ j < e.n then
        (F ⟨t, h.1⟩ ⟨i, h.2.1⟩ ⟨j, h.2.2⟩ : Nat).testBit bit
      else false) (fun t ht i hi j hj bit _ b hb => by
        rw [dif_pos ⟨ht, hi, hj⟩]
        exact hF ⟨t, ht⟩ ⟨i, hi⟩ ⟨j, hj⟩ bit b hb)
  refine ⟨α, fun t i j => Nat.eq_of_testBit_eq fun bit => ?_⟩
  rw [number, cellNumber]
  by_cases hbit : bit < log2 e.n
  · rw [Nat.testBit_ofBits_lt _ _ hbit, LogLatinSquareEncoder.bit,
      hα t t.isLt i i.isLt j j.isLt bit hbit, dif_pos ⟨t.isLt, i.isLt, j.isLt⟩]
  · have hpow : 2 ^ log2 e.n ≤ 2 ^ bit := Nat.pow_le_pow_right (by omega) (by omega)
    rw [Nat.testBit_ofBits_ge _ _ (by omega),
      Nat.testBit_lt_two_pow ((F t i j).isLt.trans_le ((le_two_pow_log2 e.n).trans hpow))]

/-- The indicators can be set to what the bits say. -/
theorem exists_indicatorsDefined (α : Assignment) :
    ∃ β, AgreeUpTo e.coreSize α β ∧ e.IndicatorsDefined β := by
  obtain ⟨β, hαβ, hβ⟩ := exists_extend e.coreSize α
    (byIndex e.n e.n e.n fun t i j v => decide (e.number α t i j = v))
  refine ⟨β, hαβ, fun t ht i hi j hj v hv => ?_⟩
  rw [indicator, hβ, byIndex_apply hi hj hv, decide_eq_true_iff, number_eq ht hi hj hαβ]

theorem lines_proper (hn : 0 < e.n) :
    (and (e.indicatorTables.map logLatin)).Proper e.indicatorState.varCounter := by
  refine Expression.proper_and fun line hline => ?_
  obtain ⟨M, hM, rfl⟩ := List.mem_map.mp hline
  obtain ⟨t, ht, rfl⟩ := List.mem_map.mp hM
  exact logLatin_proper hn fun i hi j hj v hv =>
    Literal.within_var.mpr (indicator_scope (List.mem_range.mp ht) hi hj hv)

/-- On indicated Latin squares, the constraints bound the numbers of pairs shown. -/
theorem pairConstraint_iff (hn : 0 < e.n) {α : Assignment} {F : Fin e.k → Square (Fin e.n)}
    (hF : e.Indicates α F) (hLatin : ∀ t, IsLatin (F t)) {c : Nat × Nat → Nat}
    (hc : ∀ p ∈ squarePairs e.k, c p ≤ e.n * e.n - e.q) :
    (∀ p ∈ squarePairs e.k, e.pairConstraint p (c p) α) ↔
      ∀ t u : Fin e.k, t < u → e.q + (c (t, u) - 1) ≤ pairCount (F t) (F u) := by
  rw [forall_mem_squarePairs_iff]
  refine forall_congr' fun t => forall_congr' fun u => forall_congr' fun htu => ?_
  rw [pairConstraint]
  exact pairConstraint_indicator_iff hn (hF t) (hF u) (hLatin t)
    (hc _ (mem_squarePairs.mpr ⟨htu, u.isLt⟩))

/-- The finished formula with `c p` tightenings for every pair `p`, projected to the
core variables: they store a family of Latin squares, for which `P` holds where the
symmetry-breaking formula says `B` about the indicators. -/
theorem formula_projects (hn : 0 < e.n) {B : Assignment → Prop}
    {P : (Fin e.k → Square (Fin e.n)) → Prop} {breaking ceitinEq : Expression}
    {ortho : List VariabledExpression} {s₁ s₂ : GenState}
    (hbreaking : Projects e.indicatorState.varCounter s₁.varCounter
      (fun α => breaking.eval α = true) B)
    (hB : ∀ α F, e.Indicates α F → (∀ t, IsLatin (F t)) → (B α ↔ P F))
    (hceitin : ∀ α, ceitinEq.eval α = true ↔ e.IndicatorsDefined α)
    (hortho : TightensAll s₁ s₂ (squarePairs e.k) ortho (e.n * e.n - e.q) e.pairConstraint)
    {c : Nat × Nat → Nat} (hc : ∀ p ∈ squarePairs e.k, c p ≤ e.n * e.n - e.q) :
    Projects e.coreSize s₂.varCounter
      (fun α => (e.formula breaking ceitinEq ortho).eval α = true ∧
        List.Forall₂ (fun p r => ∀ x ∈ r.vars.take (c p), x.eval α = true) (squarePairs e.k) ortho)
      fun α => ∃ F, e.Stores α F ∧ P F ∧
        LatinFamily (fun t u : Fin e.k => e.q + (c (t, u) - 1)) F := by
  let family (α : Assignment) : Prop := ∃ F, e.Indicates α F ∧
    LatinFamily (fun t u : Fin e.k => e.q + (c (t, u) - 1)) F
  have hfamily : DependsUpTo e.indicatorState.varCounter family :=
    DependsUpTo.exists_ fun F => (indicates_dependsUpTo F).and (DependsUpTo.const _ _)
  have hlines : DependsUpTo e.indicatorState.varCounter fun α =>
      e.IndicatorsDefined α ∧ (and (e.indicatorTables.map logLatin)).eval α = true :=
    indicatorsDefined_dependsUpTo.and (lines_proper hn).dependsUpTo
  -- everything written after the indicators, as a statement about the indicators
  have hstages := ((Projects.refl hlines).and hbreaking hbreaking.base).bind
    (hortho.projects c hc) hfamily ?_
  · -- the indicators themselves, as a statement about the bits
    have hstored : Projects e.coreSize e.indicatorState.varCounter
        (fun α => ((e.IndicatorsDefined α ∧
          (and (e.indicatorTables.map logLatin)).eval α = true) ∧ B α) ∧ family α)
        fun α => ∃ F, e.Stores α F ∧ P F ∧
          LatinFamily (fun t u : Fin e.k => e.q + (c (t, u) - 1)) F := by
      refine ⟨coreSize_le, (hlines.and hbreaking.base).and hfamily, ?_, ?_, fun α hα => ?_⟩
      · exact DependsUpTo.exists_ fun F => (stores_dependsUpTo F).and (DependsUpTo.const _ _)
      · rintro α ⟨⟨⟨hdefined, -⟩, hBα⟩, F, hF, hLatin⟩
        exact ⟨F, (indicates_iff_stores hdefined).mp hF, (hB α F hF hLatin.latin).mp hBα, hLatin⟩
      · obtain ⟨F, hF, hBF, hLatin⟩ := hα
        obtain ⟨β, hαβ, hdefined⟩ := exists_indicatorsDefined (e := e) α
        have hindicates := (indicates_iff_stores hdefined).mpr ((stores_dependsUpTo F hαβ).mp hF)
        exact ⟨β, hαβ, ⟨⟨hdefined, (eval_lines hn hdefined).mpr ⟨F, hindicates, hLatin.latin⟩⟩,
          (hB β F hindicates hLatin.latin).mpr hBF⟩, F, hindicates, hLatin⟩
    refine hstored.trans (hstages.congr (fun α => ?_) fun _ => Iff.rfl)
    have hexprs : (and (ortho.map VariabledExpression.expr)).eval α = true ↔
        ∀ r ∈ ortho, r.expr.eval α = true := by
      rw [Expression.eval_and, List.all_eq_true, List.forall_mem_map]
    rw [forall₂_and_right, ← hexprs, formula, Expression.eval_and_pair, Expression.eval_and_pair,
      Expression.eval_and_pair, hceitin]
    tauto
  · rintro α ⟨⟨hdefined, hlinesα⟩, -⟩
    obtain ⟨F, hF, hLatin⟩ := (eval_lines hn hdefined).mp hlinesα
    rw [pairConstraint_iff hn hF hLatin hc]
    constructor
    · exact fun h => ⟨F, hF, hLatin, h⟩
    · rintro ⟨G, hG, hfamily⟩
      rw [hF.unique hG]
      exact hfamily.pairs

/-- The formula is a conjunction of clauses. -/
theorem andArgs?_formula (hn : 0 < e.n) (hk : 0 < e.k) {breaking ceitinEq : Expression}
    {ortho : List VariabledExpression} (hbreaking : breaking.isFalse = false)
    (hceitinFalse : ceitinEq.isFalse = false)
    (hceitin : ∀ α, ceitinEq.eval α = true ↔ e.IndicatorsDefined α)
    (hortho : ∀ r ∈ ortho, r.expr.isFalse = false) :
    ∃ args, (e.formula breaking ceitinEq ortho).andArgs? = some args ∧
      e.formula breaking ceitinEq ortho = .conj args := by
  have hlines : (and (e.indicatorTables.map logLatin)).isFalse = false := by
    rw [Expression.isFalse_and, List.any_eq_false, List.forall_mem_map]
    intro M hM
    obtain ⟨t, -, rfl⟩ := List.mem_map.mp hM
    rw [Bool.not_eq_true]
    exact isFalse_logLatin hn fun i _ j _ v _ => ⟨_, rfl⟩
  have hpairs : (and (ortho.map VariabledExpression.expr)).isFalse = false := by
    rw [Expression.isFalse_and, List.any_eq_false, List.forall_mem_map]
    intro r hr
    rw [hortho r hr]
    simp
  -- with every variable false no cell has a symbol
  have hfalsified : (e.formula breaking ceitinEq ortho).eval (fun _ => false) = false := by
    rw [Bool.eq_false_iff]
    intro hformula
    rw [formula, Expression.eval_and_pair, Expression.eval_and_pair, Expression.eval_and_pair,
      hceitin] at hformula
    obtain ⟨F, hF, -⟩ := (eval_lines hn hformula.1.1.1).mp hformula.1.1.2
    have hcell := (hF ⟨0, hk⟩ ⟨0, hn⟩ ⟨0, hn⟩ _).mpr rfl
    cases hcell
  exact andArgs?_and (by simp [hlines, hbreaking, hceitinFalse, hpairs]) hfalsified

/-- The formula over its core variables, with its first `t` incremental expressions. -/
theorem exists_cnf (hn : 2 ≤ e.n) (hk : 2 ≤ e.k) (hq : e.q ≤ e.n * e.n) {B : Assignment → Prop}
    {P : (Fin e.k → Square (Fin e.n)) → Prop}
    (hsymmetry : Ensures (e.symmetry e.indicatorTables) e.indicatorState fun breaking s =>
      Builds e.indicatorState s [breaking] [] ∧
        Projects e.indicatorState.varCounter s.varCounter (fun α => breaking.eval α = true) B)
    (hB : ∀ α F, e.Indicates α F → (∀ t, IsLatin (F t)) → (B α ↔ P F)) :
    ∃ f c, e.cnf = some f ∧ f.coreVariables = List.range' 1 e.coreSize ∧
      f.incremental.length = (e.n * e.n - e.q) * (squarePairs e.k).length ∧
      ∀ t ≤ f.incremental.length, Projects e.coreSize c
        (fun α => f.Holds α ∧ ∀ x ∈ f.incremental.take t, x.eval α = true)
        fun α => ∃ F, e.Stores α F ∧ P F ∧
          LatinFamily (incrementalBound e.k e.q t) F := by
  obtain ⟨breaking, ceitinEq, ortho, s₁, s₂, hbreaking, hceitinFalse, hprojects, hceitin, hortho,
    hcnf⟩ := program_run hn hk hq hsymmetry
  obtain ⟨args, hargs, hconj⟩ := andArgs?_formula (by omega) (by omega) hbreaking hceitinFalse
    hceitin fun r hr => hortho.builds.notFalse _ (List.mem_map_of_mem hr)
  have hne : ortho ≠ [] := by
    rw [← List.length_pos_iff, hortho.length, List.length_pos_iff]
    exact squarePairs_ne_nil hk
  refine ⟨e.result ortho s₂.nodes args, s₂.varCounter, ?_, rfl, ?_, fun t ht => ?_⟩
  · rw [hcnf, hargs]
    rfl
  · rw [result, CNF.ofAnd, length_incremental hne hortho.vars, hortho.length]
  · exact projects_incremental hk rfl rfl hortho.length hortho.vars (fun steps hsteps => by
      rw [← hconj]
      exact formula_projects (by omega) hprojects hB hceitin hortho hsteps) ht

end LogLatinSquareEncoder

end LatinSquares.Generator
