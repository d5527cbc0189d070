/-
# What the incremental search has of an encoder

The incremental expressions of the encoders for squares are conjunctions of a clause of two
literals and at most one more literal, over variables of the formula. With the first `t` of them
the formula still describes families of squares, now with higher bounds, and the parser of an
encoding reads such a family off a model.
-/

import LatinSquares.Generator.Cells
import LatinSquares.Generator.Decoding
import LatinSquares.Generator.Printing

namespace LatinSquares.Generator

open LatinSquares.Math
open Expression (and)

/-- One step along the last row of a counter. -/
def Expression.IsTightening (x : Expression) : Prop :=
  ∃ last it, x = .conj [⟨.disj [.var last, .notVar it], true⟩] ∨
    ∃ before, x = .conj [⟨.disj [.var last, .notVar it], true⟩, ⟨.literal (.notVar before), true⟩]

section Shape

variable {s : GenState}

theorem yields_greaterOrEqual_tightenings (vars : List Nat) (k : Nat) :
    Yields (greaterOrEqual vars k) s fun r _ => ∀ x ∈ r.vars, x.IsTightening := by
  refine Yields.bind_right fun svars s => ?_
  dsimp only
  split
  · exact Yields.of_pure fun x hx => absurd hx List.not_mem_nil
  · refine Yields.bind_right fun _ s => Yields.bind_right fun head s => ?_
    refine Yields.bind_right fun middle s => Yields.of_pure fun x hx => ?_
    obtain ⟨i, hi, rfl⟩ := List.mem_mapIdx.mp hx
    split
    · exact ⟨_, _, Or.inl rfl⟩
    · exact ⟨_, _, Or.inr ⟨_, rfl⟩⟩

theorem yields_orthogonalBy_tightenings {order : Nat → List Nat → List Nat}
    {mark : Expression → Expression} {equalExprs : Nat → Nat → Option (List Expression)}
    {n q : Nat} :
    Yields (orthogonalBy order mark equalExprs n q) s fun r _ => ∀ x ∈ r.vars, x.IsTightening := by
  refine Yields.bind_right fun chis s => Yields.bind_right fun pairwise s => ?_
  refine Yields.bind_right fun _ s => Yields.bind_right fun _ s => ?_
  exact (yields_greaterOrEqual_tightenings _ _).bind fun greater s h => Yields.of_pure h

theorem yields_orthogonalSquare_tightenings (order : Order) (a b : Matrix) (q : Nat) :
    Yields (orthogonalSquare order a b q) s fun r _ => ∀ x ∈ r.vars, x.IsTightening := by
  unfold orthogonalSquare
  split
  · exact yields_orthogonalBy_tightenings
  · exact Yields.of_pure fun x hx => absurd hx List.not_mem_nil

theorem yields_orthogonalLogSquare_tightenings (a b : Matrix) (q : Nat) :
    Yields (orthogonalLogSquare a b q) s fun r _ => ∀ x ∈ r.vars, x.IsTightening := by
  unfold orthogonalLogSquare
  split
  · exact yields_orthogonalBy_tightenings
  · exact Yields.of_pure fun x hx => absurd hx List.not_mem_nil

/-- An incremental expression comes from one of the pairs. -/
theorem exists_mem_vars {rs : List VariabledExpression} {K : Nat} (hne : rs ≠ [])
    (hvars : ∀ r ∈ rs, r.vars.length = K) {x : Expression}
    (hx : x ∈ (transpose (rs.map VariabledExpression.vars)).flatten) : ∃ r ∈ rs, x ∈ r.vars := by
  rw [incremental_eq hne hvars] at hx
  obtain ⟨i, hi, rfl⟩ := List.mem_map.mp hx
  have hpos : 0 < rs.length := List.length_pos_iff.mpr hne
  have hpair : i % rs.length < rs.length := Nat.mod_lt _ hpos
  have hmem := List.getElem_mem hpair
  have hstep : i / rs.length < rs[i % rs.length].vars.length := by
    rw [hvars _ hmem, Nat.div_lt_iff_lt_mul hpos]
    exact List.mem_range.mp hi
  have hrow : (rs.map VariabledExpression.vars).getD (i % rs.length) [] =
      rs[i % rs.length].vars := by
    rw [List.getD_eq_getElem _ _ (by rwa [List.length_map]), List.getElem_map]
  refine ⟨_, hmem, ?_⟩
  rw [hrow, List.getD_eq_getElem _ _ hstep]
  exact List.getElem_mem hstep

end Shape

section Names

variable {c d : Nat}

theorem Literal.Proper.of_names {l : Literal} (h : l.Proper c) (hnames : ∀ v ∈ l.names, v ≤ d) :
    l.Proper d :=
  ⟨h.1, fun v hv => ⟨(h.2 v hv).1, hnames v hv⟩⟩

/-- A literal of a small variable can be printed. -/
theorem Literal.Proper.fits {l : Literal} (h : l.Proper c) (hc : c < 2 ^ 31) : l.Fits := by
  cases l with
  | constFalse => exact absurd h Literal.not_proper_constFalse
  | constTrue => exact absurd h Literal.not_proper_constTrue
  | var name =>
      obtain ⟨hpos, hle⟩ := Literal.proper_var.mp h
      exact ⟨hpos, hle.trans_lt hc⟩
  | notVar name =>
      obtain ⟨hpos, hle⟩ := Literal.proper_notVar.mp h
      exact ⟨hpos, hle.trans_lt hc⟩

theorem Clause.Proper.of_names {cl : Clause} (h : cl.Proper c) (hnames : ∀ v ∈ cl.names, v ≤ d) :
    cl.Proper d :=
  ⟨h.nonempty, fun l hl => (h.literals l hl).of_names fun v hv =>
    hnames v (List.mem_flatMap.mpr ⟨l, hl, hv⟩)⟩

/-- The bound on the variables of an expression can be lowered to the largest of them. -/
theorem Expression.Proper.of_names {e : Expression} (h : e.Proper c)
    (hnames : ∀ v ∈ e.names, v ≤ d) : e.Proper d := by
  cases e with
  | clause cj =>
      refine h.imp_right fun h => h.imp_right fun h => h.of_names fun v hv => ?_
      exact hnames v (Expression.mem_names.mpr ⟨cj, List.mem_singleton_self _, hv⟩)
  | conj cs =>
      exact ⟨h.1, fun cj hcj => (h.2 cj hcj).of_names fun v hv =>
        hnames v (Expression.mem_names.mpr ⟨cj, hcj, hv⟩)⟩

end Names

/-- The formula and its incremental expressions are over the variables the header counts. -/
structure CNF.InScope (f : CNF) : Prop where
  clauses : ∀ cj ∈ f.clauses, cj.clause.Proper f.variables_.length
  incremental : ∀ x ∈ f.incremental, x.IsTightening ∧ x.Proper f.variables_.length

namespace LatinSquareEncoder

variable {e : LatinSquareEncoder}

/-- The shape and the number of the incremental expressions. -/
theorem yields_incremental (order : Order) (hn : 3 ≤ e.n) (hk : 2 ≤ e.k) (hq : e.q ≤ e.n * e.n) :
    Yields (e.program order) {} fun f _ => (∀ x ∈ f.incremental, x.IsTightening) ∧
      f.incremental.length = (e.n * e.n - e.q) * (squarePairs e.k).length := by
  refine (Yields.of_ensures (ensures_coreVariables (by omega))).bind ?_
  rintro core s ⟨rfl, rfl⟩
  refine (Yields.of_ensures (Ensures.of_get (Q := fun _ u => u = e.coreState) rfl)).bind ?_
  rintro _ s rfl
  refine (yields_symmetry hn hk).bind ?_
  rintro breaking s₁ ⟨-, hbuilds, -⟩
  refine ((Yields.of_ensures (ensures_squarePairs order (by omega) hq hbuilds.le)).and
    (Yields.mapM_forall fun p _ s => yields_orthogonalSquare_tightenings _ _ _ _)).bind ?_
  rintro ortho s₂ ⟨hortho, htightenings⟩
  refine (Yields.of_guard (Q := fun _ _ => ortho ≠ []) id).bind fun _ _ hne => ?_
  refine Yields.bind_right fun args _ => Yields.bind_right fun _ _ => Yields.of_pure ⟨?_, ?_⟩
  · intro x hx
    obtain ⟨r, hr, hx⟩ := exists_mem_vars hne hortho.vars hx
    exact htightenings r hr x hx
  · rw [← hortho.length]
    exact length_incremental hne hortho.vars

/-- A formula that is returned is over the variables its header counts. -/
theorem inScope_of_cnf (order : Order) (hn : 3 ≤ e.n) (hk : 2 ≤ e.k) (hq : e.q ≤ e.n * e.n)
    {f : CNF} (hf : e.cnf order = some f) : f.InScope ∧ e.coreSize ≤ f.variables_.length ∧
      f.incremental.length = (e.n * e.n - e.q) * (squarePairs e.k).length := by
  have hpos : 0 < e.n := by omega
  obtain ⟨s, ⟨s₁, breaking, ortho, args, h⟩, hshape, hlength⟩ :=
    of_run' ((yields_returned order hn hk hq).and (yields_incremental order hn hk hq)) hf
  have hsize := h.length_variables hpos
  refine ⟨⟨?_, fun x hx => ⟨hshape x hx, ?_⟩⟩, ?_, hlength⟩
  · rw [hsize]
    exact h.clauses_proper hpos
  · rw [hsize]
    rw [h.result] at hx
    exact proper_incremental h.vars x hx
  · rw [hsize]
    exact h.builds.le

variable {F : Fin e.k → Square (Fin e.n)} {f : CNF} {c t : Nat}

/-- What the formula says after `t` incremental expressions, about the core variables. -/
def Says (e : LatinSquareEncoder) (f : CNF) (c t : Nat) : Prop :=
  Projects e.coreSize c (fun α => f.Holds α ∧ ∀ x ∈ f.incremental.take t, x.eval α = true)
    fun α => ∃ F, e.Describes α F ∧ (e.reduced = true → e.Broken F) ∧
      LatinFamily (incrementalBound e.k e.q t) F

theorem exists_says (order : Order) (hn : 3 ≤ e.n) (hk : 2 ≤ e.k) (hq : e.q ≤ e.n * e.n)
    (hf : e.cnf order = some f) : ∃ c, ∀ t ≤ f.incremental.length, e.Says f c t := by
  cases hreduced : e.reduced with
  | false =>
      obtain ⟨g, c, hg, -, -, hprojects⟩ := exists_cnf (P := fun F => e.reduced = true → e.Broken F)
        order (by omega) hk hq (isFalse_lines_unreduced hreduced (by omega))
        (not_describes_unreduced hreduced (by omega) (by omega))
        (ensures_symmetry_unreduced hreduced)
        fun _ _ _ _ => ⟨fun _ htrue => absurd (hreduced.symm.trans htrue) Bool.false_ne_true,
          fun _ => trivial⟩
      obtain rfl : f = g := Option.some.inj (hf.symm.trans hg)
      exact ⟨c, hprojects⟩
  | true =>
      obtain ⟨s, s₁, breaking, ortho, args, hreturned⟩ :=
        of_run' (yields_returned order hn hk hq) hf
      obtain ⟨g, c, hg, -, -, hprojects⟩ := exists_cnf (P := fun F => e.reduced = true → e.Broken F)
        order (by omega) hk hq (isFalse_lines_reduced hreduced hn (by omega))
        (not_describes_reduced hreduced hn (by omega))
        (ensures_symmetry_reduced hreduced hn hk (hreturned.cycle hreduced))
        fun α F hF _ => (breakingCondition_iff hn hk hF).trans
          ⟨fun h _ => h, fun h => h hreduced⟩
      obtain rfl : f = g := Option.some.inj (hf.symm.trans hg)
      exact ⟨c, hprojects⟩

/-- A model of a returned formula with its first `t` incremental expressions describes a family
with the higher bounds. -/
theorem exists_family_of_model (order : Order) (hn : 3 ≤ e.n) (hk : 2 ≤ e.k) (hq : e.q ≤ e.n * e.n)
    (hf : e.cnf order = some f) (ht : t ≤ f.incremental.length) {α : Assignment}
    (hα : f.Holds α) (htake : ∀ x ∈ f.incremental.take t, x.eval α = true) :
    e.coreSize ≤ f.variables_.length ∧
      ∃ F, e.Describes α F ∧ LatinFamily (incrementalBound e.k e.q t) F := by
  obtain ⟨-, hsize, -⟩ := inScope_of_cnf order hn hk hq hf
  obtain ⟨c, htells⟩ := exists_says order hn hk hq hf
  obtain ⟨F, hF, -, hfamily⟩ := (htells t ht).sound α ⟨hα, htake⟩
  exact ⟨hsize, F, hF, hfamily⟩

/-- An unreduced formula has a model for every family. -/
theorem Says.exists_unreduced (h : e.Says f c t) (hreduced : e.reduced = false)
    (hF : LatinFamily (incrementalBound e.k e.q t) F) :
    ∃ α, f.Holds α ∧ ∀ x ∈ f.incremental.take t, x.eval α = true := by
  have hnone : ∀ t i j v, oneHotKind e.reduced t i j v = none := by
    rw [hreduced]
    exact fun _ _ _ _ => rfl
  obtain ⟨α, hα⟩ := exists_describes (F := F) fun t i j v b hb =>
    absurd ((hnone t i j v).symm.trans hb) (Option.some_ne_none b).symm
  obtain ⟨β, -, hβ⟩ := h.complete α ⟨F, hα, fun htrue =>
    absurd (hreduced.symm.trans htrue) Bool.false_ne_true, hF⟩
  exact ⟨β, hβ⟩

/-- A reduced formula has a model for every family with an isotope in its form. -/
theorem Says.exists_reduced (h : e.Says f c t) {hn : 0 < e.n} {hk : 0 < e.k}
    (hreduced : e.reduced = true) (hF : LatinFamily (incrementalBound e.k e.q t) F)
    {ρ χ : Equiv.Perm (Fin e.n)} {σ : Fin e.k → Equiv.Perm (Fin e.n)}
    (hexpresses : e.Expresses hn hk fun t => isotope ρ χ (σ t) (F t)) :
    ∃ α, f.Holds α ∧ ∀ x ∈ f.incremental.take t, x.eval α = true := by
  have hfamily := hF.isotope ρ χ σ
  obtain ⟨α, hα⟩ := (exists_describes_iff hreduced hn hk hfamily.latin).mpr
    ⟨hexpresses.standard, hexpresses.avoid⟩
  obtain ⟨β, -, hβ⟩ := h.complete α ⟨_, hα, fun _ => hexpresses.broken, hfamily⟩
  exact ⟨β, hβ⟩

end LatinSquareEncoder

namespace LogLatinSquareEncoder

variable {e : LogLatinSquareEncoder}

/-- The shape and the number of the incremental expressions, and the scope of the clauses. -/
theorem yields_incremental (hn : 2 ≤ e.n) (hk : 2 ≤ e.k) (hq : e.q ≤ e.n * e.n) :
    Yields e.program {} fun f s => (∀ cj ∈ f.clauses, cj.clause.Proper s.varCounter) ∧
      (∀ x ∈ f.incremental, x.IsTightening ∧ x.Proper s.varCounter) ∧
      f.incremental.length = (e.n * e.n - e.q) * (squarePairs e.k).length := by
  refine (Yields.of_ensures (ensures_coreVariables (by omega))).bind ?_
  rintro core s ⟨rfl, rfl⟩
  refine (Yields.of_ensures (Ensures.of_get (Q := fun _ u => u = { varCounter := e.coreSize })
    rfl)).bind ?_
  rintro _ s rfl
  refine (Yields.of_ensures ensures_indicators).bind ?_
  rintro tables s ⟨rfl, rfl⟩
  refine (yields_symmetry hn (by omega)).bind ?_
  rintro breaking s₀ ⟨hbreaking, -⟩
  refine (Yields.of_ensures (ensures_ceitinEqExprs hbreaking.le)).bind ?_
  rintro ceitinEq s₁ ⟨hceitin, hcounter, -⟩
  refine ((Yields.of_ensures (ensures_squarePairs hn hq (hbreaking.le.trans hcounter.ge))).and
    (Yields.mapM_forall fun p _ s => yields_orthogonalLogSquare_tightenings _ _ _)).bind ?_
  rintro ortho s₂ ⟨hortho, htightenings⟩
  refine (Yields.of_guard (Q := fun _ t => ortho ≠ [] ∧ t = s₂) fun h => ⟨h, rfl⟩).bind ?_
  rintro _ s₂ ⟨hne, rfl⟩
  refine (Yields.of_lift (Q := fun args t =>
    (e.formula breaking ceitinEq ortho).andArgs? = some args ∧ t = s₂) fun args hargs =>
      ⟨hargs, rfl⟩).bind ?_
  rintro args s₂ ⟨hargs, rfl⟩
  refine (Yields.of_ensures (Ensures.of_get (Q := fun t u => t = s₂ ∧ u = s₂) ⟨rfl, rfl⟩)).bind ?_
  rintro t s₂ ⟨rfl, rfl⟩
  refine Yields.of_pure ⟨fun cj hcj => ?_, fun x hx => ⟨?_, ?_⟩, ?_⟩
  · have hproper : (e.formula breaking ceitinEq ortho).Proper s₂.varCounter := by
      have hle := hcounter.ge.trans hortho.builds.le
      have hlines := (lines_proper (e := e) (by omega)).mono (hbreaking.le.trans hle)
      apply Expression.proper_and_pair
      · apply Expression.proper_and_pair
        · exact Expression.proper_and_pair ((hceitin.proper ceitinEq (by simp)).mono
            hortho.builds.le) hlines
        · exact Expression.proper_and hortho.builds.proper
      · exact (hbreaking.proper breaking (by simp)).mono hle
    cases hformula : e.formula breaking ceitinEq ortho with
    | clause c =>
        rw [hformula] at hargs
        cases hargs
    | conj cs =>
        rw [hformula] at hargs hproper
        obtain rfl := Option.some.inj hargs
        exact hproper.2 cj (mem_of_mem_distinct hcj)
  · obtain ⟨r, hr, hx⟩ := exists_mem_vars hne hortho.vars hx
    exact htightenings r hr x hx
  · exact proper_incremental hortho.proper x hx
  · rw [← hortho.length]
    exact length_incremental hne hortho.vars

/-- A formula that is returned is over the variables its header counts. -/
theorem inScope_of_cnf (hn : 2 ≤ e.n) (hk : 2 ≤ e.k) (hq : e.q ≤ e.n * e.n) {f : CNF}
    (hf : e.cnf = some f) : f.InScope ∧ e.coreSize ≤ f.variables_.length ∧
      f.incremental.length = (e.n * e.n - e.q) * (squarePairs e.k).length := by
  obtain ⟨s, hnumbered, hclauses, hincremental, hlength⟩ :=
    of_run' ((yields_program hn hk hq).and (yields_incremental hn hk hq)) hf
  refine ⟨⟨fun cj hcj => ?_, fun x hx => ⟨(hincremental x hx).1, ?_⟩⟩,
    hnumbered.size_le fun _ => mem_tableNames, hlength⟩
  · exact (hclauses cj hcj).of_names fun v hv => ((hnumbered.occurs v).mp ⟨cj, hcj, hv⟩).2
  · refine (hincremental x hx).2.of_names fun v hv => (hnumbered.printed v ?_).2
    exact List.mem_append_left _ (List.mem_append_right _ (List.mem_flatMap.mpr ⟨x, hx, hv⟩))

variable {F : Fin e.k → Square (Fin e.n)} {f : CNF} {c t : Nat}

/-- What the formula says after `t` incremental expressions, about the core variables. -/
def Says (e : LogLatinSquareEncoder) (f : CNF) (c t : Nat) : Prop :=
  Projects e.coreSize c (fun α => f.Holds α ∧ ∀ x ∈ f.incremental.take t, x.eval α = true)
    fun α => ∃ F, e.Stores α F ∧ (e.reduced = true → ∀ (hk : 0 < e.k) (hn : 1 < e.n),
      RowAlong (F ⟨0, hk⟩ ⟨1, hn⟩) 0 (-1)) ∧ LatinFamily (incrementalBound e.k e.q t) F

theorem exists_says (hn : 2 ≤ e.n) (hk : 2 ≤ e.k) (hq : e.q ≤ e.n * e.n) (hf : e.cnf = some f) :
    ∃ c, ∀ t ≤ f.incremental.length, e.Says f c t := by
  have hlead : 0 < e.k := by omega
  cases hreduced : e.reduced with
  | false =>
      obtain ⟨g, c, hg, -, -, hprojects⟩ := exists_cnf (P := fun F => e.reduced = true →
          ∀ (hk : 0 < e.k) (hn : 1 < e.n), RowAlong (F ⟨0, hk⟩ ⟨1, hn⟩) 0 (-1)) hn hk hq
        (ensures_symmetry_unreduced hreduced)
        fun _ _ _ _ => ⟨fun _ htrue => absurd (hreduced.symm.trans htrue) Bool.false_ne_true,
          fun _ => trivial⟩
      obtain rfl : f = g := Option.some.inj (hf.symm.trans hg)
      exact ⟨c, hprojects⟩
  | true =>
      obtain ⟨g, c, hg, -, -, hprojects⟩ := exists_cnf (P := fun F => e.reduced = true →
          ∀ (hk : 0 < e.k) (hn : 1 < e.n), RowAlong (F ⟨0, hk⟩ ⟨1, hn⟩) 0 (-1)) hn hk hq
        (ensures_symmetry_reduced hreduced hn hlead)
        fun α F hF _ => (alongCycle_iff (by omega) (hF ⟨0, hlead⟩ ⟨1, hn⟩)).trans
          ⟨fun h _ _ _ => h, fun h => h hreduced hlead hn⟩
      obtain rfl : f = g := Option.some.inj (hf.symm.trans hg)
      exact ⟨c, hprojects⟩

/-- A model of a returned formula with its first `t` incremental expressions stores a family with
the higher bounds. -/
theorem exists_family_of_model (hn : 2 ≤ e.n) (hk : 2 ≤ e.k) (hq : e.q ≤ e.n * e.n)
    (hf : e.cnf = some f) (ht : t ≤ f.incremental.length) {α : Assignment}
    (hα : f.Holds α) (htake : ∀ x ∈ f.incremental.take t, x.eval α = true) :
    e.coreSize ≤ f.variables_.length ∧
      ∃ F, e.Stores α F ∧ LatinFamily (incrementalBound e.k e.q t) F := by
  obtain ⟨-, hsize, -⟩ := inScope_of_cnf hn hk hq hf
  obtain ⟨c, htells⟩ := exists_says hn hk hq hf
  obtain ⟨F, hF, -, hfamily⟩ := (htells t ht).sound α ⟨hα, htake⟩
  exact ⟨hsize, F, hF, hfamily⟩

/-- The formula has a model if there is a family. -/
theorem Says.exists_model (h : e.Says f c t) (hn : 2 ≤ e.n) (hk : 0 < e.k)
    (hF : LatinFamily (incrementalBound e.k e.q t) F) :
    ∃ α, f.Holds α ∧ ∀ x ∈ f.incremental.take t, x.eval α = true := by
  cases hreduced : e.reduced with
  | false =>
      have hnone : ∀ t i j bit, logKind e.reduced t i j bit = none := by
        rw [hreduced]
        exact fun _ _ _ _ => rfl
      obtain ⟨α, hα⟩ := exists_stores (F := F) fun t i j bit b hb =>
        absurd ((hnone t i j bit).symm.trans hb) (Option.some_ne_none b).symm
      obtain ⟨β, -, hβ⟩ := h.complete α ⟨F, hα, fun htrue =>
        absurd (hreduced.symm.trans htrue) Bool.false_ne_true, hF⟩
      exact ⟨β, hβ⟩
  | true =>
      obtain ⟨ρ, χ, σ, hstandard, hrow⟩ := exists_standard_second_row hn hF.latin ⟨0, hk⟩
      obtain ⟨α, hα⟩ := exists_stores_standard hreduced (by omega) hk hstandard
      obtain ⟨β, -, hβ⟩ := h.complete α ⟨_, hα, fun _ _ _ => rowAlong_all_iff.mpr hrow,
        hF.isotope ρ χ σ⟩
      exact ⟨β, hβ⟩

end LogLatinSquareEncoder

section Encodings

variable {order : Order} {options : EncodeOptions} {encoding : Encoding} {n k q t : Nat} {f : CNF}
variable {F : Fin k → Square (Fin n)} {α : Assignment}

/-- The families that the formula of an encoding can express, up to isotopy. -/
def Encoding.Reaches (encoding : Encoding) (options : EncodeOptions)
    (F : Fin k → Square (Fin n)) : Prop :=
  match encoding with
  | .reducedLatinOnehot => ∃ (hn : 0 < n) (hk : 0 < k) (ρ χ : Equiv.Perm (Fin n))
      (σ : Fin k → Equiv.Perm (Fin n)), LatinSquareEncoder.Expresses
        ⟨true, options.weighted, options.breakingSymmetryType, options.breakingSymmetryCycleNumber,
          n, k, 0⟩ hn hk fun t => isotope ρ χ (σ t) (F t)
  | .array | .reducedArray | .latinOnehot | .latinLog | .reducedLatinLog => True

/-- Without symmetry breaking these are the families one of whose crosses repeats no pair. -/
theorem reaches_none_iff (hn : 0 < n) (hk : 0 < k) (htype : options.breakingSymmetryType = .none)
    (hF : ∀ t, IsLatin (F t)) : Encoding.reducedLatinOnehot.Reaches options F ↔
      ∃ r c, CrossFree ⟨0, hk⟩ F r c := by
  rw [← exists_standard_avoiding_iff hF ⟨0, hn⟩ ⟨0, hk⟩]
  constructor
  · rintro ⟨_, _, ρ, χ, σ, hexpresses⟩
    exact ⟨ρ, χ, σ, hexpresses.standard, hexpresses.avoid⟩
  · rintro ⟨ρ, χ, σ, hstandard, havoid⟩
    exact ⟨hn, hk, ρ, χ, σ, hstandard, havoid, by simp [LatinSquareEncoder.Broken, htype]⟩

/-- With all cycles allowed these are, among others, the orthogonal families. -/
theorem reaches_of_orthogonal (hn : 3 ≤ n) (hk : 2 ≤ k)
    (hcycle : options.breakingSymmetryCycleNumber = -1)
    (hF : LatinFamily (fun _ _ => n * n) F) : encoding.Reaches options F := by
  cases encoding with
  | reducedLatinOnehot =>
      obtain ⟨ρ, χ, σ, hexpresses⟩ := LatinSquareEncoder.exists_expresses
        (e := ⟨true, options.weighted, options.breakingSymmetryType,
          options.breakingSymmetryCycleNumber, n, k, 0⟩) hn hk hcycle hF
      exact ⟨_, _, ρ, χ, σ, hexpresses⟩
  | _ => trivial

/-- The formulas of the encodings of squares have values for their cells. -/
theorem inScope_of_encode (hn : 3 ≤ n) (hk : 2 ≤ k) (hq : q ≤ n * n) (hencoding : encoding.IsLatin)
    (hf : encode order options encoding n k q = some f) :
    f.InScope ∧ 0 < f.variables_.length ∧
      f.incremental.length = (n * n - q) * (squarePairs k).length := by
  have htwo : 2 ≤ n := by omega
  have hpos : 0 < k := by omega
  cases encoding with
  | array => cases hencoding
  | reducedArray => cases hencoding
  | latinOnehot =>
      let e : LatinSquareEncoder := ⟨false, options.weighted, .none, -1, n, k, q⟩
      obtain ⟨hscope, hsize, hlength⟩ :=
        LatinSquareEncoder.inScope_of_cnf (e := e) order hn hk hq hf
      have hcore := LatinSquareEncoder.coreSize_pos (e := e) hn hpos
      exact ⟨hscope, hcore.trans_le hsize, hlength⟩
  | reducedLatinOnehot =>
      let e : LatinSquareEncoder := ⟨true, options.weighted, options.breakingSymmetryType,
        options.breakingSymmetryCycleNumber, n, k, q⟩
      obtain ⟨hscope, hsize, hlength⟩ :=
        LatinSquareEncoder.inScope_of_cnf (e := e) order hn hk hq hf
      have hcore := LatinSquareEncoder.coreSize_pos (e := e) hn hpos
      exact ⟨hscope, hcore.trans_le hsize, hlength⟩
  | latinLog =>
      let e : LogLatinSquareEncoder := ⟨false, n, k, q⟩
      obtain ⟨hscope, hsize, hlength⟩ :=
        LogLatinSquareEncoder.inScope_of_cnf (e := e) htwo hk hq hf
      have hcore := LogLatinSquareEncoder.coreSize_pos (e := e) htwo hpos
      exact ⟨hscope, hcore.trans_le hsize, hlength⟩
  | reducedLatinLog =>
      let e : LogLatinSquareEncoder := ⟨true, n, k, q⟩
      obtain ⟨hscope, hsize, hlength⟩ :=
        LogLatinSquareEncoder.inScope_of_cnf (e := e) htwo hk hq hf
      have hcore := LogLatinSquareEncoder.coreSize_pos (e := e) htwo hpos
      exact ⟨hscope, hcore.trans_le hsize, hlength⟩

/-- The parser of the encoding reads a family off a model of the formula with its first `t`
incremental expressions, and this family has the higher bounds. -/
theorem exists_family_of_take (assertions : Bool) (hn : 3 ≤ n) (hk : 2 ≤ k) (hq : q ≤ n * n)
    (hencoding : encoding.IsLatin) (hf : encode order options encoding n k q = some f)
    (ht : t ≤ f.incremental.length) (hα : f.Holds α)
    (htake : ∀ x ∈ f.incremental.take t, x.eval α = true) :
    ∃ F : Fin k → Square (Fin n), LatinFamily (incrementalBound k q t) F ∧
      ∀ rest, Ensures (encoding.construct assertions n k
        (modelValues α f.variables_.length ++ rest)) {} fun ys _ =>
          ys = .squares (shownSquares F) := by
  have htwo : 2 ≤ n := by omega
  have hpos : 0 < k := by omega
  cases encoding with
  | array => cases hencoding
  | reducedArray => cases hencoding
  | latinOnehot =>
      let e : LatinSquareEncoder := ⟨false, options.weighted, .none, -1, n, k, q⟩
      obtain ⟨hsize, F, hF, hfamily⟩ :=
        LatinSquareEncoder.exists_family_of_model (e := e) order hn hk hq hf ht hα htake
      refine ⟨F, hfamily, fun rest => Ensures.map ?_⟩
      exact (LatinSquareEncoder.ensures_latinParser (e := e) rfl hF hsize).mono
        fun _ _ => congrArg _
  | reducedLatinOnehot =>
      let e : LatinSquareEncoder := ⟨true, options.weighted, options.breakingSymmetryType,
        options.breakingSymmetryCycleNumber, n, k, q⟩
      obtain ⟨hsize, F, hF, hfamily⟩ :=
        LatinSquareEncoder.exists_family_of_model (e := e) order hn hk hq hf ht hα htake
      refine ⟨F, hfamily, fun rest => Ensures.map ?_⟩
      exact (LatinSquareEncoder.ensures_reducedLatinParser (e := e) rfl hpos hF hsize).mono
        fun _ _ => congrArg _
  | latinLog =>
      let e : LogLatinSquareEncoder := ⟨false, n, k, q⟩
      obtain ⟨hsize, F, hF, hfamily⟩ :=
        LogLatinSquareEncoder.exists_family_of_model (e := e) htwo hk hq hf ht hα htake
      refine ⟨F, hfamily, fun rest => Ensures.map ?_⟩
      exact (LogLatinSquareEncoder.ensures_logLatinParser (e := e) assertions rfl hF hfamily.latin
        hsize).mono fun _ _ => congrArg _
  | reducedLatinLog =>
      let e : LogLatinSquareEncoder := ⟨true, n, k, q⟩
      obtain ⟨hsize, F, hF, hfamily⟩ :=
        LogLatinSquareEncoder.exists_family_of_model (e := e) htwo hk hq hf ht hα htake
      refine ⟨F, hfamily, fun rest => Ensures.map ?_⟩
      exact (LogLatinSquareEncoder.ensures_reducedLogLatinParser (e := e) assertions rfl hpos hF
        hfamily.latin hsize).mono fun _ _ => congrArg _

/-- A family with these bounds gives the formula with its first `t` incremental expressions a
model. -/
theorem exists_model_of_reaches (hn : 3 ≤ n) (hk : 2 ≤ k) (hq : q ≤ n * n)
    (hencoding : encoding.IsLatin) (hf : encode order options encoding n k q = some f)
    (ht : t ≤ f.incremental.length) (hreaches : encoding.Reaches options F)
    (hF : LatinFamily (incrementalBound k q t) F) :
    ∃ α, f.Holds α ∧ ∀ x ∈ f.incremental.take t, x.eval α = true := by
  have htwo : 2 ≤ n := by omega
  have hpos : 0 < k := by omega
  cases encoding with
  | array => cases hencoding
  | reducedArray => cases hencoding
  | latinOnehot =>
      let e : LatinSquareEncoder := ⟨false, options.weighted, .none, -1, n, k, q⟩
      obtain ⟨c, htells⟩ := LatinSquareEncoder.exists_says (e := e) order hn hk hq hf
      exact (htells t ht).exists_unreduced rfl hF
  | reducedLatinOnehot =>
      let e : LatinSquareEncoder := ⟨true, options.weighted, options.breakingSymmetryType,
        options.breakingSymmetryCycleNumber, n, k, q⟩
      obtain ⟨_, _, ρ, χ, σ, hstandard, havoid, hbroken⟩ := hreaches
      obtain ⟨c, htells⟩ := LatinSquareEncoder.exists_says (e := e) order hn hk hq hf
      exact (htells t ht).exists_reduced rfl hF ⟨hstandard, havoid, hbroken⟩
  | latinLog =>
      let e : LogLatinSquareEncoder := ⟨false, n, k, q⟩
      obtain ⟨c, htells⟩ := LogLatinSquareEncoder.exists_says (e := e) htwo hk hq hf
      exact (htells t ht).exists_model htwo hpos hF
  | reducedLatinLog =>
      let e : LogLatinSquareEncoder := ⟨true, n, k, q⟩
      obtain ⟨c, htells⟩ := LogLatinSquareEncoder.exists_says (e := e) htwo hk hq hf
      exact (htells t ht).exists_model htwo hpos hF

end Encodings

end LatinSquares.Generator
