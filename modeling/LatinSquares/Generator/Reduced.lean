/-
# The reduced one-hot encoder

The reduced encoder fixes the first row and column of the first square and the
first column of the others, takes symbol `j` out of column `j` of the first row of
the others, and may ask for one more row to run along a cycle. The squares it can
describe are the families in standard form without that symbol. When every pair
has to be shown each family has such an isotope; below that only the families one
of whose crosses repeats no pair have one.
-/

import LatinSquares.Generator.Cycles
import LatinSquares.Generator.OneHotEncoder
import LatinSquares.Math.CanonicalForm

namespace LatinSquares.Generator

open LatinSquares.Math
open Expression (and)

/-- The squares read off tables of literals. -/
def Reads {n k : Nat} (core : List Matrix) (α : Assignment) (F : Fin k → Square (Fin n)) : Prop :=
  ∀ (t : Fin k) (i j v : Fin n), (Matrix.entry (core.getD t []) i j v).eval α = true ↔ F t i j = v

/-- The index of the first cell of the row that runs along a cycle. -/
def BreakingSymmetryType.firstIndex : BreakingSymmetryType → Nat
  | .second => 1
  | .first | .none => 0

namespace LatinSquareEncoder

variable {e : LatinSquareEncoder} {F : Fin e.k → Square (Fin e.n)} {α : Assignment}

/-- The tables an encoder starts from describe what is read off them. -/
theorem reads_tables_iff : Reads e.tables α F ↔ e.Describes α F := by
  refine forall_congr' fun t => forall_congr' fun i => forall_congr' fun j =>
    forall_congr' fun v => ?_
  rw [table_getD t.isLt, table, entry_matrixOf i.isLt j.isLt v.isLt, Shows]

/-- Constant entries tell symbols of the squares. -/
theorem Describes.of_kind (hF : e.Describes α F) {t : Fin e.k} {i j v : Fin e.n} {b : Bool}
    (hb : oneHotKind e.reduced t i j v = some b) : F t i j = v ↔ b = true := by
  rw [← hF t i j v, Shows, entry, layoutEntry_eval i.isLt j.isLt v.isLt hb]

/-- The tables can describe every family that respects their constants. -/
theorem exists_describes (hF : ∀ (t : Fin e.k) (i j v : Fin e.n) (b : Bool),
    oneHotKind e.reduced t i j v = some b → (F t i j = v ↔ b = true)) :
    ∃ α, e.Describes α F := by
  obtain ⟨α, hα⟩ := exists_layout_eval (oneHotKind e.reduced) e.k e.n e.n e.n
    (fun t i j v =>
      if h : t < e.k ∧ i < e.n ∧ j < e.n ∧ v < e.n then
        decide (F ⟨t, h.1⟩ ⟨i, h.2.1⟩ ⟨j, h.2.2.1⟩ = ⟨v, h.2.2.2⟩)
      else false) (fun t ht i hi j hj v hv b hb => by
        rw [dif_pos ⟨ht, hi, hj, hv⟩, Bool.eq_iff_iff, decide_eq_true_iff]
        exact hF ⟨t, ht⟩ ⟨i, hi⟩ ⟨j, hj⟩ ⟨v, hv⟩ b hb)
  refine ⟨α, fun t i j v => ?_⟩
  rw [Shows, entry, hα t t.isLt i i.isLt j j.isLt v v.isLt,
    dif_pos ⟨t.isLt, i.isLt, j.isLt, v.isLt⟩, decide_eq_true_iff]

/-- The families of Latin squares a reduced encoder can describe. -/
theorem exists_describes_iff (hreduced : e.reduced = true) (hn : 0 < e.n) (hk : 0 < e.k)
    (hF : ∀ t, IsLatin (F t)) : (∃ α, e.Describes α F) ↔
      Standard ⟨0, hn⟩ ⟨0, hk⟩ F ∧ ∀ t ≠ ⟨0, hk⟩, ∀ j ≠ ⟨0, hn⟩, F t ⟨0, hn⟩ j ≠ j := by
  constructor
  · rintro ⟨α, hα⟩
    refine ⟨⟨fun j => ?_, fun t i => ?_⟩, fun t ht j hj h => ?_⟩
    · exact (hα.of_kind (b := true) (by simp [oneHotKind, hreduced])).mpr rfl
    · refine (hα.of_kind (b := true) ?_).mpr rfl
      simp only [oneHotKind, hreduced, if_true]
      split_ifs <;> simp_all
    · have hpos : (t : Nat) ≠ 0 := fun hzero => ht (Fin.ext hzero)
      have hcolumn : (j : Nat) ≠ 0 := fun hzero => hj (Fin.ext hzero)
      have hfalse := (hα.of_kind (b := false) (by simp [oneHotKind, hreduced, hpos, hcolumn])).mp h
      simp at hfalse
  · rintro ⟨hstandard, havoid⟩
    refine exists_describes fun t i j v b hb => ?_
    have hrow : (t : Nat) = 0 → (i : Nat) = 0 → F t i j = j := by
      intro ht hi
      obtain rfl : t = ⟨0, hk⟩ := Fin.ext ht
      obtain rfl : i = ⟨0, hn⟩ := Fin.ext hi
      exact hstandard.row j
    have hcolumn : (j : Nat) = 0 → F t i j = i := by
      intro hj
      obtain rfl : j = ⟨0, hn⟩ := Fin.ext hj
      exact hstandard.column t i
    have hfirstRow : (t : Nat) = 0 → (i : Nat) ≠ 0 → F t i j ≠ j := by
      intro ht hi h
      obtain rfl : t = ⟨0, hk⟩ := Fin.ext ht
      have hzero : i = ⟨0, hn⟩ := (hF ⟨0, hk⟩).column j (h.trans (hstandard.row j).symm)
      exact hi (by rw [hzero])
    have hfirstColumn : (j : Nat) ≠ 0 → F t i j ≠ i := by
      intro hj h
      have hzero : j = ⟨0, hn⟩ := (hF t).row i (by rw [h, hstandard.column])
      exact hj (by rw [hzero])
    have havoided : (t : Nat) ≠ 0 → (i : Nat) = 0 → (j : Nat) ≠ 0 → F t i j ≠ j := by
      intro ht hi hj
      obtain rfl : i = ⟨0, hn⟩ := Fin.ext hi
      exact havoid t (fun h => ht (by rw [h])) j fun h => hj (by rw [h])
    have hforced : ∀ {c : Fin e.n}, F t i j = c →
        (F t i j = v ↔ decide ((c : Nat) = v) = true) := by
      intro c hc
      rw [hc, decide_eq_true_iff, Fin.ext_iff]
    have hexcluded : ∀ {c : Fin e.n}, F t i j ≠ c → (v : Nat) = c →
        (F t i j = v ↔ false = true) := by
      intro c hc hv
      obtain rfl : v = c := Fin.ext hv
      simp [hc]
    simp only [oneHotKind, hreduced, if_true] at hb
    split_ifs at hb with ht hi hj hv hv hj hi hv hv
    all_goals obtain rfl := Option.some.inj hb
    · exact hforced (hrow ht hi)
    · exact hforced (hcolumn hj)
    · exact hexcluded (hfirstRow ht hi) hv
    · exact hexcluded (hfirstColumn hj) hv
    · exact hforced (hcolumn hj)
    · exact hexcluded (havoided ht hi hj) hv.symm
    · exact hexcluded (hfirstColumn hj) hv.symm

/-- The lines of the reduced tables can be satisfied. -/
theorem isFalse_lines_reduced (hreduced : e.reduced = true) (hn : 3 ≤ e.n) (hk : 0 < e.k) :
    (and (e.tables.map latin)).isFalse = false := by
  obtain ⟨F, hF, hstandard, havoid⟩ := exists_standard_avoiding hn (⟨0, hk⟩ : Fin e.k)
  obtain ⟨α, hα⟩ := (exists_describes_iff hreduced (by omega) hk hF).mpr ⟨hstandard, havoid⟩
  exact Expression.isFalse_of_eval ((eval_lines (by omega)).mpr ⟨F, hα, hF⟩)

/-- With every variable false cell `(1, 1)` of the first square has no symbol. -/
theorem not_describes_reduced (hreduced : e.reduced = true) (hn : 3 ≤ e.n) (hk : 0 < e.k)
    (F : Fin e.k → Square (Fin e.n)) : ¬ e.Describes (fun _ => false) F := by
  intro hF
  have hcell := (hF ⟨0, hk⟩ ⟨1, by omega⟩ ⟨1, by omega⟩ _).mpr rfl
  rw [Shows, entry, layoutEntry, numbered, byIndex_apply (by simp; omega) (by simp; omega)
    (Fin.isLt _)] at hcell
  split at hcell
  · next b hb =>
      simp only [oneHotKind, hreduced, if_true] at hb
      split_ifs at hb <;> simp_all
  · cases hcell

/-- What the symmetry-breaking formula says about the tables. -/
def breakingCondition (e : LatinSquareEncoder) (α : Assignment) : Prop :=
  match e.breakingSymmetryType with
  | .first => AlongCycle e.n (e.entry 0 1) 0 e.cycleNum α
  | .second => AlongCycle e.n (e.entry 1 0) 1 e.cycleNum α
  | .none => True

/-- What it says about the squares. -/
def Broken (e : LatinSquareEncoder) (F : Fin e.k → Square (Fin e.n)) : Prop :=
  match e.breakingSymmetryType with
  | .first => ∀ (ht : 0 < e.k) (hi : 1 < e.n), RowAlong (F ⟨0, ht⟩ ⟨1, hi⟩) 0 e.cycleNum
  | .second => ∀ (ht : 1 < e.k) (hi : 0 < e.n), RowAlong (F ⟨1, ht⟩ ⟨0, hi⟩) 1 e.cycleNum
  | .none => True

theorem breakingCondition_iff (hn : 3 ≤ e.n) (hk : 2 ≤ e.k) (hF : e.Describes α F) :
    e.breakingCondition α ↔ e.Broken F := by
  rw [breakingCondition, Broken]
  split
  · rw [alongCycle_iff (by omega) (hF ⟨0, by omega⟩ ⟨1, by omega⟩)]
    exact ⟨fun h _ _ => h, fun h => h _ _⟩
  · rw [alongCycle_iff (by omega) (hF ⟨1, by omega⟩ ⟨0, by omega⟩)]
    exact ⟨fun h _ _ => h, fun h => h _ _⟩
  · exact Iff.rfl

/-- The cycle asked for exists. -/
def CycleExists (e : LatinSquareEncoder) : Prop :=
  e.breakingSymmetryType = .none ∨ e.cycleNum = -1 ∨ 0 ≤ e.cycleNum ∧
    e.cycleNum < (partitions (e.n - e.breakingSymmetryType.firstIndex) 2).length

/-- One row of one of the tables is asked to run along a cycle. -/
theorem ensures_breakRow {t i first : Nat} {cycle : Int} (ht : t < e.k) (hi : i < e.n)
    (hn : first + 2 ≤ e.n)
    (hcycle : cycle = -1 ∨ 0 ≤ cycle ∧ cycle < (partitions (e.n - first) 2).length) :
    Ensures (do
      let square ← liftM e.tables[t]?
      let row ← liftM square[i]?
      breakingSymmetry row first cycle) e.coreState fun breaking s =>
      Builds e.coreState s [breaking] [] ∧
        Projects e.coreSize s.varCounter (fun α => breaking.eval α = true)
          (AlongCycle e.n (e.entry t i) first cycle) := by
  have hsquare : e.tables[t]? = some (e.table t) := by
    simp [tables, ht]
  have hrow : (e.table t)[i]? = some (rowOf e.n (e.entry t i)) := by
    simp [table, matrixOf, rowOf, hi]
  refine (Ensures.of_lift (Q := fun a u => a = e.table t ∧ u = e.coreState) hsquare
    ⟨rfl, rfl⟩).bind ?_
  rintro square u ⟨rfl, rfl⟩
  refine (Ensures.of_lift (Q := fun a u => a = rowOf e.n (e.entry t i) ∧ u = e.coreState) hrow
    ⟨rfl, rfl⟩).bind ?_
  rintro row u ⟨rfl, rfl⟩
  exact ensures_breakingSymmetry hn hcycle fun j hj v hv => entry_within ht hi hj hv

/-- The symmetry breaking of a reduced encoder. -/
theorem ensures_symmetry_reduced (hreduced : e.reduced = true) (hn : 3 ≤ e.n) (hk : 2 ≤ e.k)
    (hcycle : e.CycleExists) :
    Ensures (e.symmetry e.tables) e.coreState fun breaking s =>
      Builds e.coreState s [breaking] [] ∧
        Projects e.coreSize s.varCounter (fun α => breaking.eval α = true)
          e.breakingCondition := by
  rw [CycleExists] at hcycle
  unfold breakingCondition
  rw [symmetry, if_pos hreduced]
  cases htype : e.breakingSymmetryType with
  | first =>
      rw [htype] at hcycle
      exact ensures_breakRow (by omega) (by omega) (by omega) (hcycle.resolve_left (by simp))
  | second =>
      rw [htype] at hcycle
      exact ensures_breakRow (by omega) (by omega) (by omega) (hcycle.resolve_left (by simp))
  | none => exact ensures_noBreaking _

/-- The formula of a reduced encoder, over its core variables. -/
theorem exists_cnf_reduced (order : Order) (hreduced : e.reduced = true) (hn : 3 ≤ e.n)
    (hk : 2 ≤ e.k) (hq : e.q ≤ e.n * e.n) (hcycle : e.CycleExists) :
    ∃ f c, e.cnf order = some f ∧ e.coreVariables.run {} = some (e.tables, e.coreState) ∧
      Projects e.coreSize c f.Holds fun α => ∃ F, e.Describes α F ∧ e.Broken F ∧
        LatinFamily (fun _ _ => e.q) F := by
  obtain ⟨f, c, hf, -, -, hprojects⟩ := exists_cnf order (by omega) hk hq
    (isFalse_lines_reduced hreduced hn (by omega)) (not_describes_reduced hreduced hn (by omega))
    (ensures_symmetry_reduced hreduced hn hk hcycle)
    fun α F hF _ => breakingCondition_iff hn hk hF
  have hzero := hprojects 0 (Nat.zero_le _)
  simp only [List.take_zero, List.not_mem_nil, false_imp_iff, implies_true, and_true,
    incrementalBound_zero] at hzero
  obtain ⟨core, s, hrun, rfl, rfl⟩ := ensures_coreVariables (e := e) (by omega)
  exact ⟨f, c, hf, hrun, hzero⟩

/-- A family that can be described and obeys the symmetry breaking is read off a model. -/
theorem exists_model {f : CNF} {c : Nat} (hn : 0 < e.n) (hk : 0 < e.k)
    (hf : Projects e.coreSize c f.Holds fun α => ∃ F, e.Describes α F ∧ e.Broken F ∧
      LatinFamily (fun _ _ => e.q) F)
    (hreduced : e.reduced = true) (hstandard : Standard ⟨0, hn⟩ ⟨0, hk⟩ F)
    (havoid : ∀ t ≠ ⟨0, hk⟩, ∀ j ≠ ⟨0, hn⟩, F t ⟨0, hn⟩ j ≠ j) (hbroken : e.Broken F)
    (hfamily : LatinFamily (fun _ _ => e.q) F) : ∃ α, f.Holds α ∧ Reads e.tables α F := by
  obtain ⟨α, hα⟩ := (exists_describes_iff hreduced hn hk hfamily.latin).mpr ⟨hstandard, havoid⟩
  obtain ⟨β, hαβ, hβ⟩ := hf.complete α ⟨F, hα, hbroken, hfamily⟩
  exact ⟨β, hβ, reads_tables_iff.mpr ((describes_dependsUpTo F hαβ).mp hα)⟩

/-- In an orthogonal family the first square shows no pair twice with another. -/
theorem injective_of_orthogonal (hk : 0 < e.k)
    (hF : LatinFamily (fun _ _ => e.n * e.n) F) : ∀ t ≠ ⟨0, hk⟩,
    Function.Injective fun cell : Fin e.n × Fin e.n =>
      (F ⟨0, hk⟩ cell.1 cell.2, F t cell.1 cell.2) := by
  intro t ht
  rw [← le_pairCount_iff_injective, Fintype.card_fin]
  apply hF.pairs
  have hpos : (t : Nat) ≠ 0 := fun hzero => ht (Fin.ext hzero)
  exact Fin.lt_def.mpr (Nat.pos_of_ne_zero hpos)

/-- Every orthogonal family has a standard isotope that obeys the symmetry breaking. -/
theorem exists_standard_broken (hn : 3 ≤ e.n) (hk : 2 ≤ e.k) (hcycle : e.cycleNum = -1)
    (hF : LatinFamily (fun _ _ => e.n * e.n) F) :
    ∃ (ρ χ : Equiv.Perm (Fin e.n)) (σ : Fin e.k → Equiv.Perm (Fin e.n)),
      Standard ⟨0, by omega⟩ ⟨0, by omega⟩ (fun t => isotope ρ χ (σ t) (F t)) ∧
        e.Broken fun t => isotope ρ χ (σ t) (F t) := by
  unfold Broken
  rw [hcycle]
  cases e.breakingSymmetryType with
  | first =>
      obtain ⟨ρ, χ, σ, hstandard, hrow⟩ :=
        exists_standard_second_row (by omega) hF.latin (⟨0, by omega⟩ : Fin e.k)
      exact ⟨ρ, χ, σ, hstandard, fun _ _ => rowAlong_all_iff.mpr hrow⟩
  | second =>
      have hother : (⟨1, by omega⟩ : Fin e.k) ≠ ⟨0, by omega⟩ := by simp
      obtain ⟨ρ, χ, σ, hstandard, hrow⟩ := exists_standard_other_row hn hF.latin hother
        (injective_of_orthogonal (by omega) hF)
      exact ⟨ρ, χ, σ, hstandard, fun _ _ => rowAlong_all_iff.mpr hrow⟩
  | none =>
      obtain ⟨ρ, χ, σ, -, -, hstandard⟩ := exists_standard hF.latin (⟨0, by omega⟩ : Fin e.n)
        ⟨0, by omega⟩ ⟨0, by omega⟩ (⟨0, by omega⟩ : Fin e.k)
      exact ⟨ρ, χ, σ, hstandard, trivial⟩

/-- A Latin family in the form of the reduced formula: the rows and columns of the constants, no
symbol `j` in column `j` of the first row of another square, and the broken symmetry. -/
structure Expresses (e : LatinSquareEncoder) (hn : 0 < e.n) (hk : 0 < e.k)
    (F : Fin e.k → Square (Fin e.n)) : Prop where
  standard : Standard ⟨0, hn⟩ ⟨0, hk⟩ F
  avoid : ∀ t ≠ ⟨0, hk⟩, ∀ j ≠ ⟨0, hn⟩, F t ⟨0, hn⟩ j ≠ j
  broken : e.Broken F

/-- Every orthogonal family has an isotope in this form. -/
theorem exists_expresses (hn : 3 ≤ e.n) (hk : 2 ≤ e.k) (hcycle : e.cycleNum = -1)
    (hF : LatinFamily (fun _ _ => e.n * e.n) F) :
    ∃ (ρ χ : Equiv.Perm (Fin e.n)) (σ : Fin e.k → Equiv.Perm (Fin e.n)),
      e.Expresses (by omega) (by omega) fun t => isotope ρ χ (σ t) (F t) := by
  obtain ⟨ρ, χ, σ, hstandard, hbroken⟩ := exists_standard_broken hn hk hcycle hF
  have hcross := crossFree_of_forall_injective (⟨0, by omega⟩ : Fin e.n) (⟨0, by omega⟩ : Fin e.n)
    (injective_of_orthogonal (by omega) (hF.isotope ρ χ σ))
  exact ⟨ρ, χ, σ, hstandard, hstandard.crossFree_iff.mp hcross, hbroken⟩

/-- For full orthogonality the reduced formula is sound, and every family has an
isotope among its models, whatever the symmetry breaking. -/
theorem reduced_orthogonal_cnf (order : Order) (weighted : Bool) (type : BreakingSymmetryType)
    {n k : Nat} (hn : 3 ≤ n) (hk : 2 ≤ k) :
    let e : LatinSquareEncoder :=
      { reduced := true, weighted, breakingSymmetryType := type, cycleNum := -1, n, k, q := n * n }
    ∃ f core s, e.cnf order = some f ∧ e.coreVariables.run {} = some (core, s) ∧
      (∀ α, f.Holds α → ∃ F : Fin k → Square (Fin n),
        Reads core α F ∧ LatinFamily (fun _ _ => n * n) F) ∧
      ∀ F : Fin k → Square (Fin n), LatinFamily (fun _ _ => n * n) F →
        ∃ (ρ χ : Equiv.Perm (Fin n)) (σ : Fin k → Equiv.Perm (Fin n)) (α : Assignment),
          f.Holds α ∧ Reads core α fun t => isotope ρ χ (σ t) (F t) := by
  intro e
  have hpos : 0 < n := by omega
  have hsome : 0 < k := by omega
  obtain ⟨f, c, hf, hrun, hprojects⟩ :=
    exists_cnf_reduced (e := e) order rfl hn hk le_rfl (Or.inr (Or.inl rfl))
  refine ⟨f, _, _, hf, hrun, fun α hα => ?_, fun F hF => ?_⟩
  · obtain ⟨F, hdescribes, -, hfamily⟩ := hprojects.sound α hα
    exact ⟨F, reads_tables_iff.mpr hdescribes, hfamily⟩
  · obtain ⟨ρ, χ, σ, hexpresses⟩ := exists_expresses (e := e) hn hk rfl hF
    obtain ⟨α, hα, hreads⟩ := exists_model (e := e) hpos hsome hprojects rfl hexpresses.standard
      hexpresses.avoid hexpresses.broken (hF.isotope ρ χ σ)
    exact ⟨ρ, χ, σ, α, hα, hreads⟩

/-- Two squares of order three, with the first row of the second one along a cycle. -/
theorem reduced_orthogonal_cnf_three :
    let e : LatinSquareEncoder :=
      { reduced := true, weighted := false, breakingSymmetryType := .second, cycleNum := -1,
        n := 3, k := 2, q := 3 * 3 }
    ∃ f core s, e.cnf Order.identity = some f ∧ e.coreVariables.run {} = some (core, s) ∧
      (∀ α, f.Holds α → ∃ F : Fin 2 → Square (Fin 3),
        Reads core α F ∧ LatinFamily (fun _ _ => 3 * 3) F) ∧
      ∀ F : Fin 2 → Square (Fin 3), LatinFamily (fun _ _ => 3 * 3) F →
        ∃ (ρ χ : Equiv.Perm (Fin 3)) (σ : Fin 2 → Equiv.Perm (Fin 3)) (α : Assignment),
          f.Holds α ∧ Reads core α fun t => isotope ρ χ (σ t) (F t) :=
  reduced_orthogonal_cnf Order.identity false .second (by decide) (by decide)

/-- Below full orthogonality an isotope of a family is among the models of the reduced
formula exactly when one of the family's crosses repeats no pair. -/
theorem exists_model_iff_crossFree {f : CNF} {c : Nat} (hn : 0 < e.n) (hk : 0 < e.k)
    (hf : Projects e.coreSize c f.Holds fun α => ∃ F, e.Describes α F ∧ e.Broken F ∧
      LatinFamily (fun _ _ => e.q) F)
    (hreduced : e.reduced = true) (htype : e.breakingSymmetryType = .none)
    (hF : LatinFamily (fun _ _ => e.q) F) :
    (∃ (ρ χ : Equiv.Perm (Fin e.n)) (σ : Fin e.k → Equiv.Perm (Fin e.n)) (α : Assignment),
        f.Holds α ∧ Reads e.tables α fun t => isotope ρ χ (σ t) (F t)) ↔
      ∃ r c, CrossFree ⟨0, hk⟩ F r c := by
  rw [← exists_standard_avoiding_iff hF.latin ⟨0, hn⟩ ⟨0, hk⟩]
  refine exists_congr fun ρ => exists_congr fun χ => exists_congr fun σ => ?_
  have hfamily := hF.isotope ρ χ σ
  constructor
  · rintro ⟨α, -, hα⟩
    exact (exists_describes_iff hreduced hn hk hfamily.latin).mp ⟨α, reads_tables_iff.mp hα⟩
  · rintro ⟨hstandard, havoid⟩
    exact exists_model hn hk hf hreduced hstandard havoid (by simp [Broken, htype]) hfamily

/-- The reduced formula has, among its models, an isotope of exactly those families
one of whose crosses repeats no pair. -/
theorem reduced_cnf_iff_crossFree (order : Order) (weighted : Bool) {n k q : Nat} (hn : 3 ≤ n)
    (hk : 2 ≤ k) (hq : q < n * n) :
    let e : LatinSquareEncoder := { reduced := true, weighted, n, k, q }
    ∃ f core s, e.cnf order = some f ∧ e.coreVariables.run {} = some (core, s) ∧
      ∀ F : Fin k → Square (Fin n), LatinFamily (fun _ _ => q) F →
        ((∃ (ρ χ : Equiv.Perm (Fin n)) (σ : Fin k → Equiv.Perm (Fin n)) (α : Assignment),
            f.Holds α ∧ Reads core α fun t => isotope ρ χ (σ t) (F t)) ↔
          ∃ r c, CrossFree ⟨0, by omega⟩ F r c) := by
  intro e
  have hpos : 0 < n := by omega
  have hsome : 0 < k := by omega
  obtain ⟨f, c, hf, hrun, hprojects⟩ :=
    exists_cnf_reduced (e := e) order rfl hn hk hq.le (Or.inl rfl)
  exact ⟨f, _, _, hf, hrun, fun F hF =>
    exists_model_iff_crossFree (e := e) hpos hsome hprojects rfl rfl hF⟩

/-- Two squares of order three that show at least three pairs. -/
theorem reduced_cnf_iff_crossFree_three :
    let e : LatinSquareEncoder := { reduced := true, weighted := false, n := 3, k := 2, q := 3 }
    ∃ f core s, e.cnf Order.identity = some f ∧ e.coreVariables.run {} = some (core, s) ∧
      ∀ F : Fin 2 → Square (Fin 3), LatinFamily (fun _ _ => 3) F →
        ((∃ (ρ χ : Equiv.Perm (Fin 3)) (σ : Fin 2 → Equiv.Perm (Fin 3)) (α : Assignment),
            f.Holds α ∧ Reads core α fun t => isotope ρ χ (σ t) (F t)) ↔
          ∃ r c, CrossFree ⟨0, by omega⟩ F r c) :=
  reduced_cnf_iff_crossFree Order.identity false (by decide) (by decide) (by decide)

/-- Twice the cyclic square of order three: it shows three pairs, each of them in every
row and column, and the reduced formula has none of its isotopes among its models. -/
theorem exists_family_without_model :
    let e : LatinSquareEncoder := { reduced := true, n := 3, k := 2, q := 3 }
    ∃ f core s, e.cnf Order.identity = some f ∧ e.coreVariables.run {} = some (core, s) ∧
      ∃ F : Fin 2 → Square (Fin 3), LatinFamily (fun _ _ => 3) F ∧
        ¬ ∃ (ρ χ : Equiv.Perm (Fin 3)) (σ : Fin 2 → Equiv.Perm (Fin 3)) (α : Assignment),
          f.Holds α ∧ Reads core α fun t => isotope ρ χ (σ t) (F t) := by
  intro e
  obtain ⟨f, c, hf, hrun, hprojects⟩ := exists_cnf_reduced (e := e) Order.identity rfl
    (by decide) (by decide) (by decide) (Or.inl rfl)
  have hfamily : LatinFamily (fun _ _ => 3) fun (_ : Fin 2) (i j : Fin 3) => i + j :=
    ⟨fun _ => ⟨by decide, by decide⟩, by decide⟩
  refine ⟨f, _, _, hf, hrun, _, hfamily, ?_⟩
  rw [exists_model_iff_crossFree (e := e) (by decide) (by decide) hprojects rfl rfl hfamily]
  unfold CrossFree
  decide

end LatinSquareEncoder

end LatinSquares.Generator
