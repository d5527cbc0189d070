/-
# Putting a formula together

The last steps all encoders share: the loop over the pairs of squares, the cast of
the finished conjunction, and the removal of repeated clauses. The loop projects to
the conjunction of what its rounds say, with a number of tightenings chosen for
every pair; the incremental expressions deal the tightenings to the pairs in turn.
-/

import LatinSquares.Generator.Encoders
import LatinSquares.Generator.Squares
import LatinSquares.Math.RoundRobin
import Mathlib.Algebra.BigOperators.Intervals

namespace LatinSquares.Generator

open LatinSquares.Math
open Expression (and)

/-- Every clause of the formula is true. -/
def CNF.Holds (f : CNF) (α : Assignment) : Prop := ∀ cj ∈ f.clauses, cj.clause.eval α = true

section SquarePairs

theorem mem_squarePairs {k : Nat} {p : Nat × Nat} :
    p ∈ squarePairs k ↔ p.1 < p.2 ∧ p.2 < k := by
  obtain ⟨i, j⟩ := p
  simp only [squarePairs, List.mem_flatMap, List.mem_range, List.mem_map, mem_rangeUntil,
    Prod.mk.injEq]
  constructor
  · rintro ⟨i', -, j', ⟨hij, hj⟩, rfl, rfl⟩
    exact ⟨by omega, hj⟩
  · rintro ⟨hij, hj⟩
    exact ⟨i, by omega, j, ⟨by omega, hj⟩, rfl, rfl⟩

theorem forall_mem_squarePairs_iff {k : Nat} {P : Nat × Nat → Prop} :
    (∀ p ∈ squarePairs k, P p) ↔ ∀ t u : Fin k, t < u → P (t, u) := by
  constructor
  · exact fun h t u htu => h _ (mem_squarePairs.mpr ⟨htu, u.isLt⟩)
  · rintro h ⟨t, u⟩ hp
    obtain ⟨htu, hu⟩ := mem_squarePairs.mp hp
    exact h ⟨t, htu.trans hu⟩ ⟨u, hu⟩ htu

theorem squarePairs_ne_nil {k : Nat} (hk : 2 ≤ k) : squarePairs k ≠ [] := by
  have hmem : ((0, 1) : Nat × Nat) ∈ squarePairs k := mem_squarePairs.mpr ⟨by omega, by omega⟩
  exact List.ne_nil_of_mem hmem

theorem squarePairs_nodup (k : Nat) : (squarePairs k).Nodup := by
  rw [squarePairs, List.nodup_flatMap]
  constructor
  · intro i _
    exact (List.nodup_range' ..).map fun j j' h => (Prod.ext_iff.mp h).2
  · refine (List.nodup_range ..).imp fun {i i'} hne => ?_
    rw [Function.onFun, List.disjoint_left]
    intro p hp hp'
    obtain ⟨j, -, rfl⟩ := List.mem_map.mp hp
    obtain ⟨j', -, h⟩ := List.mem_map.mp hp'
    exact hne (Prod.ext_iff.mp h).1.symm

theorem length_squarePairs (k : Nat) : (squarePairs k).length = k * (k - 1) / 2 := by
  have hrow : ∀ i, ((rangeUntil (i + 1) k).map fun j => (i, j)).length = k - 1 - i := by
    intro i
    rw [List.length_map, rangeUntil, List.length_range']
    omega
  rw [squarePairs, List.length_flatMap]
  simp only [hrow]
  calc
    ((List.range k).map fun i => k - 1 - i).sum = ∑ i ∈ Finset.range k, (k - 1 - i) := by
      rw [sum_map_range, Fin.sum_univ_eq_sum_range fun i => k - 1 - i]
    _ = ∑ i ∈ Finset.range k, i := Finset.sum_range_reflect (fun i => i) k
    _ = k * (k - 1) / 2 := Finset.sum_range_id k

end SquarePairs

section Distinct

variable {cs : List Conjunct} {α : Assignment}

theorem mem_of_mem_distinct {cj : Conjunct} (h : cj ∈ distinct cs) : cj ∈ cs := by
  induction cs with
  | nil => cases h
  | cons c cs ih =>
      rw [distinct] at h
      rcases List.mem_cons.mp h with rfl | h
      · exact List.mem_cons_self ..
      · exact List.mem_cons_of_mem _ (ih (List.mem_of_mem_filter h))

/-- Every clause keeps a representative. -/
theorem exists_mem_distinct {cj : Conjunct} (h : cj ∈ cs) :
    ∃ d ∈ distinct cs, d.clause = cj.clause := by
  induction cs with
  | nil => cases h
  | cons c cs ih =>
      by_cases hclause : cj.clause = c.clause
      · exact ⟨c, List.mem_cons_self .., hclause.symm⟩
      · rcases List.mem_cons.mp h with rfl | h
        · exact absurd rfl hclause
        · obtain ⟨d, hd, hdcj⟩ := ih h
          refine ⟨d, List.mem_cons_of_mem _ (List.mem_filter.mpr ⟨hd, ?_⟩), hdcj⟩
          rw [hdcj]
          simpa using hclause

/-- Dropping repetitions does not change what a formula says. -/
theorem holds_iff_conj {f : CNF} (hf : f.clauses = distinct cs) :
    f.Holds α ↔ (Expression.conj cs).eval α = true := by
  rw [CNF.Holds, hf, Expression.eval_conj, List.all_eq_true]
  constructor
  · intro h cj hcj
    obtain ⟨d, hd, hclause⟩ := exists_mem_distinct hcj
    rw [← hclause]
    exact h d hd
  · exact fun h cj hcj => h cj (mem_of_mem_distinct hcj)

end Distinct

/-- Only a conjunction can be cast. -/
theorem eq_conj_of_andArgs? {e : Expression} {args : List Conjunct} (h : e.andArgs? = some args) :
    e = .conj args := by
  cases e with
  | clause cj => cases h
  | conj cs =>
      cases h
      rfl

/-- The cast of a conjunction that is neither constant. -/
theorem andArgs?_and {es : List Expression} (hnotFalse : (and es).isFalse = false)
    {α : Assignment} (hα : (and es).eval α = false) :
    ∃ args, (and es).andArgs? = some args ∧ and es = .conj args := by
  rcases Expression.and_cases es with heq | heq | ⟨-, -, heq⟩
  · rw [heq] at hnotFalse
    simp at hnotFalse
  · rw [heq] at hα
    simp at hα
  · rw [heq]
    exact ⟨_, rfl, rfl⟩

/-- A symmetry-breaking step that asks for nothing. -/
theorem ensures_noBreaking (s : GenState) :
    Ensures (pure (and []) : Gen Expression) s fun breaking s' =>
      Builds s s' [breaking] [] ∧
        Projects s.varCounter s'.varCounter (fun α => breaking.eval α = true) fun _ => True := by
  refine Ensures.of_pure ⟨Builds.of_pure ?_ (by simp) ?_, ?_⟩
  · simpa using Expression.proper_and (by simp)
  · simpa using fun α => Expression.ignoredHold_and (by simp)
  · exact (Projects.refl (DependsUpTo.const _ True)).congr (by simp) fun _ => Iff.rfl

/-- What the loop over the pairs of squares has done, each round tightening by `K`
expressions and saying `P p c` about the pair `p` after `c` of them. -/
structure TightensAll (s s' : GenState) (pairs : List (Nat × Nat))
    (rs : List VariabledExpression) (K : Nat) (P : Nat × Nat → Nat → Assignment → Prop) :
    Prop where
  builds : Builds s s' (rs.map VariabledExpression.expr) []
  length : rs.length = pairs.length
  vars : ∀ r ∈ rs, r.vars.length = K
  proper : ∀ r ∈ rs, ∀ e ∈ r.vars, e.Proper s'.varCounter
  projects : ∀ c : Nat × Nat → Nat, (∀ p ∈ pairs, c p ≤ K) →
    Projects s.varCounter s'.varCounter
      (fun α => List.Forall₂ (fun p r => r.expr.eval α = true ∧
        ∀ e ∈ r.vars.take (c p), e.eval α = true) pairs rs)
      fun α => ∀ p ∈ pairs, P p (c p) α

section Loop

variable {pairs : List (Nat × Nat)} {rs : List VariabledExpression} {K : Nat}
  {P : Nat × Nat → Nat → Assignment → Prop} {s s' : GenState}
  {R : Nat × Nat → GenState → VariabledExpression → GenState → Prop}

theorem builds_of_tightens (hR : ∀ p t r t', R p t r t' → Tightens t t' r K (P p))
    (h : Traversal R pairs s rs s') : Builds s s' (rs.map VariabledExpression.expr) [] := by
  induction h with
  | nil t => exact Builds.of_pure (by simp) (by simp) (by simp)
  | cons head tail ih => exact (hR _ _ _ _ head).builds.append ih

theorem vars_of_tightens (hR : ∀ p t r t', R p t r t' → Tightens t t' r K (P p))
    (h : Traversal R pairs s rs s') :
    ∀ r ∈ rs, r.vars.length = K ∧ ∀ e ∈ r.vars, e.Proper s'.varCounter := by
  induction h with
  | nil t => simp
  | cons head tail ih =>
      have hround := hR _ _ _ _ head
      refine List.forall_mem_cons.mpr ⟨⟨hround.length, fun e he => ?_⟩, ih⟩
      exact (hround.proper e he).mono (builds_of_tightens hR tail).le

theorem ensures_pairs {f : Nat × Nat → Gen VariabledExpression}
    (hstep : ∀ p ∈ pairs, ∀ t : GenState, s.varCounter ≤ t.varCounter →
      Ensures (f p) t fun r t' => Tightens t t' r K (P p)) :
    Ensures (pairs.mapM f) s fun rs s' => TightensAll s s' pairs rs K P := by
  have hloop : Ensures (pairs.mapM f) s fun rs s' =>
      Traversal (fun p t r t' => Tightens t t' r K (P p)) pairs s rs s' ∧
        s.varCounter ≤ s'.varCounter := by
    refine Ensures.mapM (le_refl s.varCounter) fun p hp t ht => ?_
    exact (hstep p hp t ht).mono fun r t' h => ⟨h, ht.trans h.builds.le⟩
  -- every round speaks about the variables given out before the loop
  have hbase : ∀ p ∈ pairs, ∀ c ≤ K, DependsUpTo s.varCounter (P p c) := by
    intro p hp c hc
    obtain ⟨r, t, -, htightens⟩ := hstep p hp s le_rfl
    exact (htightens.projects c hc).base
  refine hloop.mono ?_
  rintro rs s' ⟨htraversal, -⟩
  have hvars := vars_of_tightens (fun _ _ _ _ h => h) htraversal
  refine ⟨builds_of_tightens (fun _ _ _ _ h => h) htraversal, htraversal.length_eq,
    fun r hr => (hvars r hr).1, fun r hr => (hvars r hr).2, fun c hc => ?_⟩
  have hround : Traversal (fun p t r t' => p ∈ pairs ∧ Tightens t t' r K (P p)) pairs s rs s' :=
    htraversal.mono fun p hp t r t' h => ⟨hp, h⟩
  exact hround.projects (fun p hp => hbase p hp (c p) (hc p hp))
    (fun p t r t' h => h.2.projects (c p) (hc p h.1)) le_rfl

/-- The formulas of the loop, without any tightening. -/
theorem TightensAll.projects_zero (h : TightensAll s s' pairs rs K P) :
    Projects s.varCounter s'.varCounter
      (fun α => (and (rs.map VariabledExpression.expr)).eval α = true)
      fun α => ∀ p ∈ pairs, P p 0 α := by
  refine (h.projects (fun _ => 0) fun _ _ => Nat.zero_le K).congr (fun α => ?_) fun _ => Iff.rfl
  rw [Expression.eval_and, List.all_eq_true, List.forall_mem_map]
  simp only [List.take_zero, List.not_mem_nil, false_imp_iff, implies_true, and_true]
  exact forall₂_const_iff h.length

end Loop

section Incremental

variable {rs : List VariabledExpression} {K : Nat}

/-- The incremental expressions, in the order in which they are dealt. -/
theorem incremental_eq (hne : rs ≠ []) (hvars : ∀ r ∈ rs, r.vars.length = K) :
    (transpose (rs.map VariabledExpression.vars)).flatten =
      (List.range (K * rs.length)).map fun s =>
        ((rs.map VariabledExpression.vars).getD (s % rs.length) []).getD (s / rs.length)
          default := by
  have hpos : 0 < rs.length := List.length_pos_iff.mpr hne
  have hrows : rs.map VariabledExpression.vars = (List.range rs.length).map fun p =>
      (List.range K).map fun r =>
        ((rs.map VariabledExpression.vars).getD p []).getD r default := by
    refine List.ext_getElem (by simp) fun p hp hp' => ?_
    rw [List.length_map] at hp
    rw [List.getElem_map, List.getElem_map, List.getElem_range,
      List.getD_eq_getElem _ _ (by simpa using hp), List.getElem_map]
    have hlength := hvars _ (List.getElem_mem hp)
    refine List.ext_getElem (by simp [hlength]) fun r hr hr' => ?_
    rw [List.getElem_map, List.getElem_range, List.getD_eq_getElem]
  conv_lhs => rw [hrows]
  rw [transpose_map_range hpos, flatten_map_range hpos]

theorem length_incremental (hne : rs ≠ []) (hvars : ∀ r ∈ rs, r.vars.length = K) :
    (transpose (rs.map VariabledExpression.vars)).flatten.length = K * rs.length := by
  rw [incremental_eq hne hvars, List.length_map, List.length_range]

/-- The first `t` incremental expressions are the first tightenings of every pair, as
many as have been dealt to it. -/
theorem incremental_take_iff {pairs : List (Nat × Nat)} (hnodup : pairs.Nodup)
    (hne : rs ≠ []) (hlength : rs.length = pairs.length) (hvars : ∀ r ∈ rs, r.vars.length = K)
    {t : Nat} (ht : t ≤ K * pairs.length) {Q : Expression → Prop} :
    (∀ x ∈ (transpose (rs.map VariabledExpression.vars)).flatten.take t, Q x) ↔
      List.Forall₂ (fun p r => ∀ x ∈ r.vars.take (dealt pairs.length t (pairs.idxOf p)), Q x)
        pairs rs := by
  have hpos : 0 < pairs.length := by rw [← hlength]; exact List.length_pos_iff.mpr hne
  have hdealt : (∀ x ∈ (transpose (rs.map VariabledExpression.vars)).flatten.take t, Q x) ↔
      ∀ s < t, Q (((rs.map VariabledExpression.vars).getD (s % pairs.length) []).getD
        (s / pairs.length) default) := by
    rw [incremental_eq hne hvars, hlength, ← List.map_take, List.take_range, Nat.min_eq_left ht,
      List.forall_mem_map]
    simp only [List.mem_range]
  rw [hdealt, forall_dealt_iff (Q := fun p r =>
    Q (((rs.map VariabledExpression.vars).getD p []).getD r default)) hpos, List.forall₂_iff_get]
  have hround : ∀ p (hp : p < pairs.length) (hp' : p < rs.length),
      (∀ r < dealt pairs.length t p,
        Q (((rs.map VariabledExpression.vars).getD p []).getD r default)) ↔
        ∀ x ∈ rs[p].vars.take (dealt pairs.length t (pairs.idxOf pairs[p])), Q x := by
    intro p hp hp'
    have hheld : dealt pairs.length t p ≤ rs[p].vars.length := by
      rw [hvars _ (List.getElem_mem hp')]
      exact dealt_le hp ht
    rw [hnodup.idxOf_getElem, List.getD_eq_getElem _ _ (by simpa using hp'), List.getElem_map]
    simp only [List.mem_iff_getElem]
    constructor
    · rintro h x ⟨r, hr, rfl⟩
      rw [List.length_take] at hr
      have hitem := h r (by omega)
      rwa [List.getD_eq_getElem _ _ (by omega), ← List.getElem_take] at hitem
    · intro h r hr
      rw [List.getD_eq_getElem _ _ (by omega)]
      exact h _ ⟨r, by rw [List.length_take]; omega, List.getElem_take⟩
  constructor
  · exact fun h => ⟨hlength.symm, fun p hp hp' => (hround p hp hp').mp (h p hp)⟩
  · rintro ⟨-, h⟩ p hp
    exact (hround p hp (by omega)).mpr (h p hp (by omega))

/-- The bound on the pairs of squares `a` and `b` after `t` incremental expressions. -/
def incrementalBound (k q t : Nat) (a b : Fin k) : Nat :=
  q + (dealt (squarePairs k).length t ((squarePairs k).idxOf (↑a, ↑b)) - 1)

theorem incrementalBound_zero (k q : Nat) : incrementalBound k q 0 = fun _ _ => q := by
  funext a b
  simp [incrementalBound, dealt]

/-- What a finished formula with its first `t` incremental expressions says, given
what it says with any number of tightenings of every pair. -/
theorem projects_incremental {f : CNF} {k K c c' : Nat} (hk : 2 ≤ k) {args : List Conjunct}
    (hclauses : f.clauses = distinct args)
    (hincremental : f.incremental = (transpose (rs.map VariabledExpression.vars)).flatten)
    (hlength : rs.length = (squarePairs k).length) (hvars : ∀ r ∈ rs, r.vars.length = K)
    {meaning : (Nat × Nat → Nat) → Assignment → Prop}
    (hmeaning : ∀ steps : Nat × Nat → Nat, (∀ p ∈ squarePairs k, steps p ≤ K) → Projects c c'
      (fun α => (Expression.conj args).eval α = true ∧ List.Forall₂ (fun p r =>
        ∀ x ∈ r.vars.take (steps p), x.eval α = true) (squarePairs k) rs) (meaning steps))
    {t : Nat} (ht : t ≤ f.incremental.length) :
    Projects c c'
      (fun α => f.Holds α ∧ ∀ x ∈ f.incremental.take t, x.eval α = true)
      (meaning fun p => dealt (squarePairs k).length t ((squarePairs k).idxOf p)) := by
  have hne : rs ≠ [] := by
    rw [← List.length_pos_iff, hlength, List.length_pos_iff]
    exact squarePairs_ne_nil hk
  rw [hincremental, length_incremental hne hvars, hlength] at ht
  have hsteps : ∀ p ∈ squarePairs k,
      dealt (squarePairs k).length t ((squarePairs k).idxOf p) ≤ K :=
    fun p hp => dealt_le (List.idxOf_lt_length_of_mem hp) ht
  refine (hmeaning _ hsteps).congr (fun α => ?_) fun _ => Iff.rfl
  rw [holds_iff_conj hclauses, hincremental,
    incremental_take_iff (squarePairs_nodup k) hne hlength hvars ht]

end Incremental

end LatinSquares.Generator
