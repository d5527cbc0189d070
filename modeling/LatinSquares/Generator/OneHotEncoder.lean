/-
# The one-hot encoder

`LatinSquareEncoder` lays out `k` tables, asks each to be a Latin square and every
two to show enough pairs. The tables are described by `coreEntry`; which entries
are constants is told by `oneHotKind`, for all squares at once. `program_run`
describes the whole run up to the last cast, and the meaning of the formula is
read off it: its projection to the core variables.
-/

import LatinSquares.Generator.Assembly
import LatinSquares.Generator.Pairs

namespace LatinSquares.Generator

open LatinSquares.Math
open Expression (and)

/-- Which entries of the tables are constants. -/
def oneHotKind (reduced : Bool) (t i j k : Nat) : Option Bool :=
  if reduced then
    if t = 0 then
      if i = 0 then some (j = k)
      else if j = 0 then some (i = k)
      else if k = j then some false
      else if k = i then some false
      else none
    else if j = 0 then some (i = k)
    else if i = 0 then if j = k then some false else none
    else if i = k then some false
    else none
  else none

namespace LatinSquareEncoder

variable (e : LatinSquareEncoder)

/-- Entry `(i, j, k)` of table `t`. -/
def entry (t i j k : Nat) : Literal :=
  layoutEntry e.n e.n e.n (oneHotKind e.reduced) t i j k

/-- Table `t`. -/
def table (t : Nat) : Matrix := matrixOf e.n e.n e.n (e.entry t)

/-- The tables. -/
def tables : List Matrix := (List.range e.k).map e.table

/-- The number of core variables. -/
def coreSize : Nat := layoutSize e.n e.n e.n (oneHotKind e.reduced) e.k

/-- The state after the tables have been laid out. -/
def coreState : GenState := { varCounter := e.coreSize }

variable {e}

theorem entry_within {t i j k : Nat} (ht : t < e.k) (hi : i < e.n) (hj : j < e.n)
    (hk : k < e.n) : (e.entry t i j k).Within e.coreSize :=
  layoutEntry_within ht hi hj hk

/-- The counter once `t` tables have been laid out. -/
def tablesSize (e : LatinSquareEncoder) (t : Nat) : Nat :=
  layoutSize e.n e.n e.n (oneHotKind e.reduced) t

section Allocation

variable {s : GenState}

/-- The first table of a reduced encoder. -/
theorem ensures_firstTable (hreduced : e.reduced = true) (hs : s.varCounter = 0) :
    Ensures (initFirstReducedMatrix e.n e.n e.n) s fun M s' =>
      M = e.table 0 ∧ s' = { s with varCounter := e.tablesSize 1 } := by
  refine ensures_table (fun i _ j _ k _ => ?_) (by simp [hs, layoutSize, variablesBefore])
  simp only [oneHotKind, hreduced, if_true]
  split_ifs <;> rfl

/-- The other tables of a reduced encoder. -/
theorem ensures_laterTables (hreduced : e.reduced = true) (hs : s.varCounter = e.tablesSize 1)
    {length : Nat} :
    Ensures ((List.range' 1 length).mapM fun _ => initReducedMatrix e.n e.n e.n) s fun Ms s' =>
      Ms = (List.range' 1 length).map e.table ∧
        s' = { s with varCounter := e.tablesSize (1 + length) } := by
  refine ensures_mapM_range' hs fun t ht _ s hs => ensures_table (fun i _ j _ k _ => ?_) hs
  simp only [oneHotKind, hreduced, if_true, if_neg (by omega : ¬ t = 0)]
  split_ifs <;> rfl

/-- The tables of an unreduced encoder. -/
theorem ensures_unreducedTables (hreduced : e.reduced = false) (hs : s.varCounter = 0) :
    Ensures ((List.range e.k).mapM fun _ => initMatrix e.n e.n e.n) s fun Ms s' =>
      Ms = e.tables ∧ s' = { s with varCounter := e.coreSize } := by
  refine ensures_mapM_range (by simp [hs, layoutSize, variablesBefore]) fun t _ s hs =>
    ensures_table (fun i _ j _ k _ => ?_) hs
  simp only [oneHotKind, hreduced]
  rfl

end Allocation

theorem ensures_coreVariables (hk : 0 < e.k) :
    Ensures e.coreVariables {} fun core s => core = e.tables ∧ s = e.coreState := by
  rw [coreVariables]
  split
  · next hreduced =>
      refine (ensures_firstTable hreduced rfl).bind ?_
      rintro first s ⟨rfl, rfl⟩
      refine (ensures_laterTables hreduced rfl).bind ?_
      rintro others s ⟨rfl, rfl⟩
      have hlast : 1 + (e.k - 1) = e.k := by omega
      refine Ensures.of_pure ⟨?_, ?_⟩
      · rw [tables, range_eq_zero_cons hk, List.map_cons, rangeUntil]
      · rw [hlast]
        rfl
  · next hreduced => exact ensures_unreducedTables (by simpa using hreduced) rfl

/-- What the constraint on the squares `p.1` and `p.2` says after `c` tightenings. -/
def pairConstraint (e : LatinSquareEncoder) (p : Nat × Nat) (c : Nat) (α : Assignment) : Prop :=
  PairConstraint e.n e.q (oneHotPositions e.n (e.entry p.1) (e.entry p.2)) (e.entry p.1)
    (e.entry p.2) c α

/-- The expression the finished formula is cast from. -/
def formula (e : LatinSquareEncoder) (breaking : Expression) (ortho : List VariabledExpression) :
    Expression :=
  and [and [and (e.tables.map latin), breaking], and (ortho.map VariabledExpression.expr)]

/-- The formula object for the arguments of a successful cast. -/
def result (e : LatinSquareEncoder) (breaking : Expression) (ortho : List VariabledExpression)
    (nodes : List Node) (args : List Conjunct) : CNF :=
  CNF.ofAnd args (List.range' 1 e.coreSize) (e.metaVars e.tables)
    (transpose (ortho.map VariabledExpression.vars)).flatten nodes
    (List.replicate (and (e.tables.map latin)).args.length (if e.weighted then e.n else 1) ++
      List.replicate breaking.args.length 1 ++
      List.replicate (and (ortho.map VariabledExpression.expr)).args.length 1)

theorem table_getD {t : Nat} (ht : t < e.k) : e.tables.getD t [] = e.table t :=
  getD_map_range _ _ ht

/-- Outside the first column no later square has a fixed symbol. -/
theorem entry_ne_constTrue {t i j k : Nat} (ht : t ≠ 0) (hi : i < e.n) (hj : j < e.n)
    (hk : k < e.n) (hcolumn : j ≠ 0) : e.entry t i j k ≠ .constTrue := by
  have hkind : ∀ b, oneHotKind e.reduced t i j k = some b → b = false := by
    intro b hb
    simp only [oneHotKind, if_neg ht, if_neg hcolumn] at hb
    split_ifs at hb <;> simp_all
  rw [entry, layoutEntry, numbered, byIndex_apply hi hj hk]
  split
  · next b hb =>
      rw [hkind b hb]
      simp
  · simp

/-- The loop over the pairs of squares. -/
theorem ensures_squarePairs (order : Order) (hn : 2 ≤ e.n) (hq : e.q ≤ e.n * e.n) {s : GenState}
    (hs : e.coreSize ≤ s.varCounter) :
    Ensures ((squarePairs e.k).mapM fun p =>
      orthogonalSquare order (e.tables.getD p.1 []) (e.tables.getD p.2 []) e.q) s
        fun ortho s' => TightensAll s s' (squarePairs e.k) ortho (e.n * e.n - e.q)
          e.pairConstraint := by
  refine ensures_pairs fun p hp t ht => ?_
  obtain ⟨hij, hj⟩ := mem_squarePairs.mp hp
  have hwithin : ∀ u < e.k, ∀ i < e.n, ∀ j < e.n, ∀ k < e.n,
      (e.entry u i j k).Within t.varCounter :=
    fun u hu i hi j hj k hk => (entry_within hu hi hj hk).mono (hs.trans ht)
  show Ensures (orthogonalSquare order (e.tables.getD p.1 []) (e.tables.getD p.2 []) e.q) t _
  rw [table_getD (hij.trans hj), table_getD hj]
  exact ensures_orthogonalSquare order hn hq (hwithin _ (hij.trans hj)) (hwithin _ hj)
    fun i hi j hj k hk => entry_ne_constTrue (by omega) hi hj hk

/-- The run of the encoder up to the last cast, when the symmetry-breaking step
returns a formula that projects to `B`. -/
theorem program_run (order : Order) (hn : 2 ≤ e.n) (hk : 2 ≤ e.k) (hq : e.q ≤ e.n * e.n)
    {B : Assignment → Prop}
    (hsymmetry : Ensures (e.symmetry e.tables) e.coreState fun breaking s =>
      Builds e.coreState s [breaking] [] ∧
        Projects e.coreSize s.varCounter (fun α => breaking.eval α = true) B) :
    ∃ breaking ortho s₁ s₂,
      Builds e.coreState s₁ [breaking] [] ∧
      Projects e.coreSize s₁.varCounter (fun α => breaking.eval α = true) B ∧
      TightensAll s₁ s₂ (squarePairs e.k) ortho (e.n * e.n - e.q) e.pairConstraint ∧
      e.cnf order = (e.formula breaking ortho).andArgs?.map (e.result breaking ortho s₂.nodes) := by
  obtain ⟨core, s, hcoreRun, rfl, rfl⟩ := ensures_coreVariables (e := e) (by omega)
  obtain ⟨breaking, s₁, hbreakingRun, hbreaking, hprojects⟩ := hsymmetry
  obtain ⟨ortho, s₂, horthoRun, hortho⟩ := ensures_squarePairs order hn hq hbreaking.le
  refine ⟨breaking, ortho, s₁, s₂, hbreaking, hprojects, hortho, ?_⟩
  have hne : ortho ≠ [] := by
    rw [← List.length_pos_iff, hortho.length, List.length_pos_iff]
    exact squarePairs_ne_nil hk
  have hrun : (e.program order).run {} = (e.formula breaking ortho).andArgs?.map fun args =>
      (e.result breaking ortho s₂.nodes args, s₂) := by
    rw [program, run_bind_of_run hcoreRun, run_get_bind, run_bind_of_run hbreakingRun,
      run_bind_of_run horthoRun, run_guard_bind hne, run_lift_bind, Option.map_eq_bind]
    rfl
  rw [cnf, run'_of_run hrun, Option.map_map]
  rfl

/-- The squares the core variables describe. -/
def Describes (e : LatinSquareEncoder) (α : Assignment) (F : Fin e.k → Square (Fin e.n)) : Prop :=
  ∀ t : Fin e.k, OneHot (Shows α (e.entry t)) (F t)

theorem eval_lines (hn : 0 < e.n) {α : Assignment} :
    (and (e.tables.map latin)).eval α = true ↔
      ∃ F, e.Describes α F ∧ ∀ t, IsLatin (F t) := by
  rw [Expression.eval_and, List.all_eq_true, List.forall_mem_map, tables, forall_mem_map_range]
  simp only [table, eval_latin hn, Describes]
  rw [Classical.skolem]
  exact exists_congr fun F => ⟨fun h => ⟨fun t => (h t).2, fun t => (h t).1⟩,
    fun h t => ⟨h.2 t, h.1 t⟩⟩

theorem lines_proper (hn : 0 < e.n) : (and (e.tables.map latin)).Proper e.coreSize := by
  refine Expression.proper_and fun line hline => ?_
  obtain ⟨M, hM, rfl⟩ := List.mem_map.mp hline
  obtain ⟨t, ht, rfl⟩ := List.mem_map.mp hM
  exact latin_proper hn fun i hi j hj k hk => entry_within (List.mem_range.mp ht) hi hj hk

/-- On described Latin squares, the constraints bound the numbers of pairs shown. -/
theorem pairConstraint_iff (hn : 0 < e.n) {α : Assignment} {F : Fin e.k → Square (Fin e.n)}
    (hF : e.Describes α F) (hLatin : ∀ t, IsLatin (F t)) {c : Nat × Nat → Nat}
    (hc : ∀ p ∈ squarePairs e.k, c p ≤ e.n * e.n - e.q) :
    (∀ p ∈ squarePairs e.k, e.pairConstraint p (c p) α) ↔
      ∀ t u : Fin e.k, t < u → e.q + (c (t, u) - 1) ≤ pairCount (F t) (F u) := by
  rw [forall_mem_squarePairs_iff]
  refine forall_congr' fun t => forall_congr' fun u => forall_congr' fun htu => ?_
  rw [pairConstraint]
  exact pairConstraint_oneHot_iff hn (hF t) (hF u) (hLatin t)
    (hc _ (mem_squarePairs.mpr ⟨htu, u.isLt⟩))

theorem describes_dependsUpTo (F : Fin e.k → Square (Fin e.n)) :
    DependsUpTo e.coreSize fun α => e.Describes α F := by
  intro α β hαβ
  refine forall_congr' fun t => forall_congr' fun i => forall_congr' fun j =>
    forall_congr' fun k => ?_
  rw [Shows, Shows, (entry_within t.isLt i.isLt j.isLt k.isLt).eval_eq hαβ]

/-- The squares the core variables describe are determined by them. -/
theorem Describes.unique {α : Assignment} {F G : Fin e.k → Square (Fin e.n)}
    (hF : e.Describes α F) (hG : e.Describes α G) : F = G :=
  funext fun t => (hF t).unique (hG t)

/-- The finished formula with `c p` tightenings for every pair `p`, projected to the
core variables: they describe a family of Latin squares, for which `P` holds where
the symmetry-breaking formula says `B`. -/
theorem formula_projects (hn : 0 < e.n) {B : Assignment → Prop}
    {P : (Fin e.k → Square (Fin e.n)) → Prop} {breaking : Expression}
    {ortho : List VariabledExpression} {s₁ s₂ : GenState}
    (hbreaking : Projects e.coreSize s₁.varCounter (fun α => breaking.eval α = true) B)
    (hB : ∀ α F, e.Describes α F → (∀ t, IsLatin (F t)) → (B α ↔ P F))
    (hortho : TightensAll s₁ s₂ (squarePairs e.k) ortho (e.n * e.n - e.q) e.pairConstraint)
    {c : Nat × Nat → Nat} (hc : ∀ p ∈ squarePairs e.k, c p ≤ e.n * e.n - e.q) :
    Projects e.coreSize s₂.varCounter
      (fun α => (e.formula breaking ortho).eval α = true ∧
        List.Forall₂ (fun p r => ∀ x ∈ r.vars.take (c p), x.eval α = true) (squarePairs e.k) ortho)
      fun α => ∃ F, e.Describes α F ∧ P F ∧
        LatinFamily (fun t u : Fin e.k => e.q + (c (t, u) - 1)) F := by
  have hlines : Projects e.coreSize e.coreSize
      (fun α => (and (e.tables.map latin)).eval α = true)
      fun α => (and (e.tables.map latin)).eval α = true :=
    Projects.refl (lines_proper hn).dependsUpTo
  have hfamily : DependsUpTo e.coreSize fun α => ∃ F, e.Describes α F ∧
      LatinFamily (fun t u : Fin e.k => e.q + (c (t, u) - 1)) F :=
    DependsUpTo.exists_ fun F => (describes_dependsUpTo F).and (DependsUpTo.const _ _)
  have hstages := (hlines.and hbreaking hbreaking.base).bind (hortho.projects c hc) hfamily ?_
  · refine hstages.congr (fun α => ?_) fun α => ?_
    · have hexprs : (and (ortho.map VariabledExpression.expr)).eval α = true ↔
          ∀ r ∈ ortho, r.expr.eval α = true := by
        rw [Expression.eval_and, List.all_eq_true, List.forall_mem_map]
      rw [forall₂_and_right, ← hexprs, formula]
      simp [and_assoc]
    · rw [eval_lines hn]
      constructor
      · rintro ⟨⟨-, hBα⟩, F, hF, hfamily⟩
        exact ⟨F, hF, (hB α F hF hfamily.latin).mp hBα, hfamily⟩
      · rintro ⟨F, hF, hPF, hfamily⟩
        exact ⟨⟨⟨F, hF, hfamily.latin⟩, (hB α F hF hfamily.latin).mpr hPF⟩, F, hF, hfamily⟩
  · rintro α ⟨hlinesα, -⟩
    obtain ⟨F, hF, hLatin⟩ := (eval_lines hn).mp hlinesα
    rw [pairConstraint_iff hn hF hLatin hc]
    constructor
    · exact fun h => ⟨F, hF, hLatin, h⟩
    · rintro ⟨G, hG, hfamily⟩
      rw [hF.unique hG]
      exact hfamily.pairs

/-- The formula is a conjunction of clauses when the lines of the tables can be
satisfied and are not satisfied by leaving every cell empty. -/
theorem andArgs?_formula (hn : 0 < e.n) {breaking : Expression}
    {ortho : List VariabledExpression} (hlines : (and (e.tables.map latin)).isFalse = false)
    (hempty : ∀ F, ¬ e.Describes (fun _ => false) F) (hbreaking : breaking.isFalse = false)
    (hortho : ∀ r ∈ ortho, r.expr.isFalse = false) :
    ∃ args, (e.formula breaking ortho).andArgs? = some args ∧
      e.formula breaking ortho = .conj args := by
  have hpairs : (and (ortho.map VariabledExpression.expr)).isFalse = false := by
    rw [Expression.isFalse_and, List.any_eq_false, List.forall_mem_map]
    intro r hr
    rw [hortho r hr]
    simp
  have hfalsified : (e.formula breaking ortho).eval (fun _ => false) = false := by
    rw [Bool.eq_false_iff]
    intro hformula
    rw [formula, Expression.eval_and_pair, Expression.eval_and_pair] at hformula
    obtain ⟨F, hF, -⟩ := (eval_lines hn).mp hformula.1.1
    exact hempty F hF
  exact andArgs?_and (by simp [hlines, hbreaking, hpairs]) hfalsified

/-- The formula over its core variables, with its first `t` incremental expressions. -/
theorem exists_cnf (order : Order) (hn : 2 ≤ e.n) (hk : 2 ≤ e.k) (hq : e.q ≤ e.n * e.n)
    {B : Assignment → Prop} {P : (Fin e.k → Square (Fin e.n)) → Prop}
    (hlines : (and (e.tables.map latin)).isFalse = false)
    (hempty : ∀ F, ¬ e.Describes (fun _ => false) F)
    (hsymmetry : Ensures (e.symmetry e.tables) e.coreState fun breaking s =>
      Builds e.coreState s [breaking] [] ∧
        Projects e.coreSize s.varCounter (fun α => breaking.eval α = true) B)
    (hB : ∀ α F, e.Describes α F → (∀ t, IsLatin (F t)) → (B α ↔ P F)) :
    ∃ f c, e.cnf order = some f ∧ f.coreVariables = List.range' 1 e.coreSize ∧
      f.incremental.length = (e.n * e.n - e.q) * (squarePairs e.k).length ∧
      ∀ t ≤ f.incremental.length, Projects e.coreSize c
        (fun α => f.Holds α ∧ ∀ x ∈ f.incremental.take t, x.eval α = true)
        fun α => ∃ F, e.Describes α F ∧ P F ∧ LatinFamily (incrementalBound e.k e.q t) F := by
  obtain ⟨breaking, ortho, s₁, s₂, hbreaking, hbreakingProjects, hortho, hcnf⟩ :=
    program_run order hn hk hq hsymmetry
  obtain ⟨args, hargs, hconj⟩ := andArgs?_formula (by omega) hlines hempty
    (hbreaking.notFalse _ (List.mem_singleton.mpr rfl))
    fun r hr => hortho.builds.notFalse _ (List.mem_map_of_mem hr)
  have hne : ortho ≠ [] := by
    rw [← List.length_pos_iff, hortho.length, List.length_pos_iff]
    exact squarePairs_ne_nil hk
  refine ⟨e.result breaking ortho s₂.nodes args, s₂.varCounter, ?_, rfl, ?_, fun t ht => ?_⟩
  · rw [hcnf, hargs]
    rfl
  · rw [result, CNF.ofAnd, length_incremental hne hortho.vars, hortho.length]
  · exact projects_incremental hk rfl rfl hortho.length hortho.vars (fun steps hsteps => by
      rw [← hconj]
      exact formula_projects (by omega) hbreakingProjects hB hortho hsteps) ht

end LatinSquareEncoder

end LatinSquares.Generator
