/-
# Counting pairs of symbols

`orthogonalBy` introduces a variable `chi` for every ordered pair of symbols,
defines it to hold when the pair occurs, and bounds the number of pairs that do
not. Everything it introduces is projected away here: what remains is a lower
bound on the number of pairs for which one of the given expressions holds. The
shuffled order of the `chi`s does not matter, since the bound only counts them.
-/

import LatinSquares.Generator.Counter
import LatinSquares.Generator.Definitions
import LatinSquares.Math.OneHot

namespace LatinSquares.Generator

open LatinSquares.Math
open Expression (and)

section OrthogonalBy

variable {order : Nat → List Nat → List Nat} {mark : Expression → Expression}
  {equalExprs : Nat → Nat → Option (List Expression)} {E : Nat → Nat → List Expression}
  {n q : Nat} {st : GenState}

/-- The number of pairs of symbols that occur, for symbols numbered from one. -/
def shownPairs (n : Nat) (E : Nat → Nat → List Expression) (α : Assignment) : Nat :=
  (Finset.univ.filter fun p : Fin n × Fin n =>
    (E (p.1 + 1) (p.2 + 1)).any (Expression.eval α) = true).card

/-- What `orthogonalBy` says after `c` tightenings: enough pairs of symbols occur,
and none twice when there are as many positions as pairs wanted. -/
def PairsShown (n q : Nat) (E : Nat → Nat → List Expression) (c : Nat) (α : Assignment) : Prop :=
  (∀ aN ∈ List.range' 1 n, ∀ bN ∈ List.range' 1 n, q = (E aN bN).length →
    NoTwo ((E aN bN).map (Expression.eval α))) ∧
  q + (c - 1) ≤ shownPairs n E α

/-- The `chi` of the symbols numbered `aN` and `bN`, past the variables up to `start`. -/
def chiOf (n start aN bN : Nat) : Nat := start + (aN - 1) * n + (bN - 1) + 1

/-- Rounds over `1..n` are rounds over the indices below `n`. -/
theorem range'_one_eq_map (n : Nat) : List.range' 1 n = (List.range n).map (· + 1) := by
  rw [List.range'_eq_map_range]
  exact List.map_congr_left fun i _ => Nat.add_comm 1 i

theorem flatMap_chiOf (n start : Nat) :
    ((List.range' 1 n).flatMap fun aN => (List.range' 1 n).flatMap fun bN =>
      [chiOf n start aN bN]) = List.range' (start + 1) (n * n) := by
  rw [← flatMap_range', range'_one_eq_map, List.flatMap_map]
  refine List.flatMap_congr fun a _ => ?_
  rw [List.flatMap_map, ← List.map_eq_flatMap, List.range'_eq_map_range]
  refine List.map_congr_left fun b _ => ?_
  rw [chiOf]
  simp only [Nat.add_sub_cancel]
  omega

theorem countP_not_eq {vars : List Nat} {α : Assignment} :
    vars.countP (fun v => !α v) = vars.length - vars.countP α := by
  have hsplit := List.length_eq_countP_add_countP α (l := vars)
  have hneg : vars.countP (fun v => decide ¬α v = true) = vars.countP fun v => !α v :=
    List.countP_congr fun v _ => by simp
  rw [hneg] at hsplit
  omega

/-- The definitions of all the `chi`s. -/
theorem ensures_pairwiseOrtho (hmark : IsMark mark) {chi : Nat → Nat → Nat} {start : Nat}
    (hcounter : st.varCounter = start + n * n)
    (hchi : ∀ aN ∈ List.range' 1 n, ∀ bN ∈ List.range' 1 n, chi aN bN = chiOf n start aN bN)
    (hE : ∀ aN ∈ List.range' 1 n, ∀ bN ∈ List.range' 1 n, equalExprs aN bN = some (E aN bN))
    (hexprs : ∀ aN ∈ List.range' 1 n, ∀ bN ∈ List.range' 1 n, ∀ e ∈ E aN bN,
      e.Definable st.varCounter) :
    Ensures ((List.range' 1 n).mapM fun aN => do
      let row ← (List.range' 1 n).mapM fun bN => do
        let exprs ← liftM (equalExprs aN bN)
        symbolPair mark exprs q (chi aN bN)
      return and row) st fun es st' =>
        Builds st st' [and es] (List.range' (start + 1) (n * n)) ∧
          Projects st.varCounter st'.varCounter (fun α => (and es).eval α = true)
            fun α => ∀ aN ∈ List.range' 1 n, ∀ bN ∈ List.range' 1 n,
              PairDefined (E aN bN) q (chiOf n start aN bN) α := by
  have hscope : ∀ aN ∈ List.range' 1 n, ∀ bN ∈ List.range' 1 n,
      1 ≤ chiOf n start aN bN ∧ chiOf n start aN bN ≤ st.varCounter := by
    intro aN haN bN hbN
    rw [List.mem_range'_1] at haN hbN
    have hrow : (aN - 1 + 1) * n ≤ n * n := Nat.mul_le_mul_right n (by omega)
    rw [Nat.add_mul] at hrow
    rw [chiOf]
    omega
  have hpair : ∀ aN ∈ List.range' 1 n, ∀ bN ∈ List.range' 1 n,
      DependsUpTo st.varCounter (PairDefined (E aN bN) q (chiOf n start aN bN)) :=
    fun aN haN bN hbN =>
      pairDefined_dependsUpTo (hscope aN haN bN hbN).2 (hexprs aN haN bN hbN)
  rw [← flatMap_chiOf]
  refine ensures_mapM_projects le_rfl
    (fun aN haN => DependsUpTo.forall_ fun bN => DependsUpTo.forall_ fun hbN =>
      hpair aN haN bN hbN) fun aN haN t ht => ?_
  refine (ensures_mapM_projects ht (fun bN hbN => hpair aN haN bN hbN)
    fun bN hbN t' ht' => ?_).bind fun row t' hrow => Ensures.of_pure hrow
  have hle : st.varCounter ≤ t'.varCounter := ht.trans ht'
  refine (Ensures.of_lift (Q := fun exprs u => exprs = E aN bN ∧ u = t') (hE aN haN bN hbN)
    ⟨rfl, rfl⟩).bind ?_
  rintro _ _ ⟨rfl, rfl⟩
  have hchiScope := hscope aN haN bN hbN
  rw [hchi aN haN bN hbN]
  exact ensures_symbolPair hmark ⟨hchiScope.1, hchiScope.2.trans hle⟩
    fun e he => (hexprs aN haN bN hbN e he).mono hle

/-- Where the `chi`s are defined, the ones that hold are the pairs that occur. -/
theorem countP_chis {start : Nat} {α : Assignment}
    (h : ∀ aN ∈ List.range' 1 n, ∀ bN ∈ List.range' 1 n,
      PairDefined (E aN bN) q (chiOf n start aN bN) α) :
    (List.range' (start + 1) (n * n)).countP α = shownPairs n E α := by
  have hrows : List.range' (start + 1) (n * n) =
      (List.range n).flatMap fun a =>
        (List.range n).map fun b => chiOf n start (a + 1) (b + 1) := by
    rw [← flatMap_range']
    refine List.flatMap_congr fun a _ => ?_
    rw [List.range'_eq_map_range]
    refine List.map_congr_left fun b _ => ?_
    rw [chiOf]
    simp only [Nat.add_sub_cancel]
    omega
  rw [hrows, countP_square, shownPairs]
  congr 1
  refine Finset.filter_congr fun p _ => ?_
  have hmem : ∀ i : Fin n, (i : Nat) + 1 ∈ List.range' 1 n := by
    intro i
    rw [List.mem_range'_1]
    omega
  rw [(h _ (hmem p.1) _ (hmem p.2)).1]

theorem shownPairs_le (n : Nat) (E : Nat → Nat → List Expression) (α : Assignment) :
    shownPairs n E α ≤ n * n := by
  calc
    shownPairs n E α ≤ (Finset.univ : Finset (Fin n × Fin n)).card := Finset.card_filter_le _ _
    _ = n * n := by rw [Finset.card_univ, Fintype.card_prod, Fintype.card_fin]

/-- The expressions of a pair have the same values under agreeing assignments. -/
theorem map_eval_eq {d : Nat} {exprs : List Expression} (h : ∀ e ∈ exprs, e.Definable d)
    {α β : Assignment} (hαβ : AgreeUpTo d α β) :
    exprs.map (Expression.eval β) = exprs.map (Expression.eval α) :=
  List.map_congr_left fun e he => (h e he).eval_eq hαβ

theorem shownPairs_dependsUpTo {d k : Nat}
    (hexprs : ∀ aN ∈ List.range' 1 n, ∀ bN ∈ List.range' 1 n, ∀ e ∈ E aN bN, e.Definable d) :
    DependsUpTo d fun α => k ≤ shownPairs n E α := by
  intro α β hαβ
  have hshown : shownPairs n E β = shownPairs n E α := by
    rw [shownPairs, shownPairs]
    congr 1
    refine Finset.filter_congr fun p _ => ?_
    have hmem : ∀ i : Fin n, (i : Nat) + 1 ∈ List.range' 1 n := by
      intro i
      rw [List.mem_range'_1]
      omega
    rw [any_eq_of_map_eq (map_eval_eq (hexprs _ (hmem p.1) _ (hmem p.2)) hαβ)]
  simp only [hshown]

theorem noTwo_dependsUpTo {d : Nat}
    (hexprs : ∀ aN ∈ List.range' 1 n, ∀ bN ∈ List.range' 1 n, ∀ e ∈ E aN bN, e.Definable d) :
    DependsUpTo d fun α => ∀ aN ∈ List.range' 1 n, ∀ bN ∈ List.range' 1 n,
      q = (E aN bN).length → NoTwo ((E aN bN).map (Expression.eval α)) := by
  intro α β hαβ
  refine forall_congr' fun aN => forall_congr' fun haN => forall_congr' fun bN =>
    forall_congr' fun hbN => ?_
  rw [map_eval_eq (hexprs aN haN bN hbN) hαβ]

/-- The `chi`s can be set to what their definitions say. -/
theorem projects_chis {start : Nat}
    (hexprs : ∀ aN ∈ List.range' 1 n, ∀ bN ∈ List.range' 1 n, ∀ e ∈ E aN bN,
      e.Definable start) :
    Projects start (start + n * n)
      (fun α => ∀ aN ∈ List.range' 1 n, ∀ bN ∈ List.range' 1 n,
        PairDefined (E aN bN) q (chiOf n start aN bN) α)
      fun α => ∀ aN ∈ List.range' 1 n, ∀ bN ∈ List.range' 1 n,
        q = (E aN bN).length → NoTwo ((E aN bN).map (Expression.eval α)) := by
  have hscope : ∀ aN ∈ List.range' 1 n, ∀ bN ∈ List.range' 1 n,
      chiOf n start aN bN ≤ start + n * n := by
    intro aN haN bN hbN
    rw [List.mem_range'_1] at haN hbN
    have hrow : (aN - 1 + 1) * n ≤ n * n := Nat.mul_le_mul_right n (by omega)
    rw [Nat.add_mul] at hrow
    rw [chiOf]
    omega
  refine ⟨by omega, ?_, noTwo_dependsUpTo hexprs, fun α hα aN haN bN hbN =>
    (hα aN haN bN hbN).2, fun α hα => ?_⟩
  · exact DependsUpTo.forall_ fun aN => DependsUpTo.forall_ fun haN => DependsUpTo.forall_ fun bN =>
      DependsUpTo.forall_ fun hbN => pairDefined_dependsUpTo (hscope aN haN bN hbN)
        fun e he => (hexprs aN haN bN hbN e he).mono (by omega)
  · obtain ⟨β, hαβ, hβ⟩ := exists_extend_rows start n α fun a b =>
      (E (a + 1) (b + 1)).any (Expression.eval α)
    refine ⟨β, hαβ, fun aN haN bN hbN => ⟨?_, ?_⟩⟩
    · have hvalue := hβ (aN - 1) (bN - 1) (by rw [List.mem_range'_1] at hbN; omega)
      have haN1 : aN - 1 + 1 = aN := by rw [List.mem_range'_1] at haN; omega
      have hbN1 : bN - 1 + 1 = bN := by rw [List.mem_range'_1] at hbN; omega
      rw [haN1, hbN1] at hvalue
      rw [chiOf, hvalue, any_eq_of_map_eq (map_eval_eq (hexprs aN haN bN hbN) hαβ)]
    · rw [map_eval_eq (hexprs aN haN bN hbN) hαβ]
      exact hα aN haN bN hbN

/-- `orthogonalBy` bounds the number of pairs of symbols that occur from below, by
one more for every tightening expression after the first. -/
theorem ensures_orthogonalBy (hmark : IsMark mark)
    (horder : ∀ counter vars, (order counter vars).Perm vars) (hn : 2 ≤ n) (hq : q ≤ n * n)
    (hE : ∀ aN ∈ List.range' 1 n, ∀ bN ∈ List.range' 1 n, equalExprs aN bN = some (E aN bN))
    (hexprs : ∀ aN ∈ List.range' 1 n, ∀ bN ∈ List.range' 1 n, ∀ e ∈ E aN bN,
      e.Definable st.varCounter) :
    Ensures (orthogonalBy order mark equalExprs n q) st fun r st' =>
      Tightens st st' r (n * n - q) (PairsShown n q E) := by
  unfold orthogonalBy
  refine (ensures_newVariableRows n n st).bind ?_
  rintro chis st₁ ⟨hchis, hst₁⟩
  have hcounter : st₁.varCounter = st.varCounter + n * n := by rw [hst₁]
  have hflatten : chis.flatten = List.range' (st.varCounter + 1) (n * n) := by
    rw [hchis, ← List.flatMap_def, flatMap_range']
  have hchi : ∀ aN ∈ List.range' 1 n, ∀ bN ∈ List.range' 1 n,
      (chis.getD (aN - 1) []).getD (bN - 1) 0 = chiOf n st.varCounter aN bN := by
    intro aN haN bN hbN
    rw [List.mem_range'_1] at haN hbN
    rw [hchis, getD_map_range _ _ (by omega), getD_range' (by omega), chiOf]
    omega
  have hexprs₁ : ∀ aN ∈ List.range' 1 n, ∀ bN ∈ List.range' 1 n, ∀ e ∈ E aN bN,
      e.Definable st₁.varCounter :=
    fun aN haN bN hbN e he => (hexprs aN haN bN hbN e he).mono (by omega)
  refine (ensures_pairwiseOrtho hmark hcounter hchi hE hexprs₁).bind ?_
  rintro pairwiseOrtho st₂ ⟨hbuilds, hprojects⟩
  refine (Ensures.of_guard (Q := fun _ t => st₂ = t) hq rfl).bind ?_
  rintro _ _ rfl
  refine (Ensures.of_get (Q := fun t u => st₂ = t ∧ st₂ = u) ⟨rfl, rfl⟩).bind ?_
  rintro _ _ ⟨rfl, rfl⟩
  -- the order of the `chi`s is irrelevant to the counter
  have hperm : (order st₂.varCounter chis.flatten).Perm
      (List.range' (st.varCounter + 1) (n * n)) := by
    rw [← hflatten]
    exact horder _ _
  have hlength : (order st₂.varCounter chis.flatten).length = n * n := by
    rw [hperm.length_eq, List.length_range']
  have hle := hbuilds.le
  have hsquare : 2 * 2 ≤ n * n := Nat.mul_le_mul hn hn
  refine (ensures_greaterOrEqual (by omega) fun v hv => ?_).bind ?_
  · have hmem := hperm.mem_iff.mp hv
    rw [List.mem_range'_1] at hmem
    omega
  rintro greater st₃ hgreater
  refine Ensures.of_pure ⟨?_, hgreater.length, hgreater.proper, fun c hc => ?_⟩
  · refine (hbuilds.append hgreater.builds).and.of_introduced (by omega) (by rw [hst₁]) ?_
    rw [fresh, hcounter, Nat.add_sub_cancel_left]
  · -- the `chi`s are determined by the pairs, and the counter counts them
    have hdefined := projects_chis (q := q) hexprs
    rw [← hcounter] at hdefined
    have hdetermined : ∀ α, (and pairwiseOrtho).eval α = true →
        ((order st₂.varCounter chis.flatten).countP (fun v => !α v) ≤ n * n - q - (c - 1) ↔
          q + (c - 1) ≤ shownPairs n E α) := by
      intro α hα
      have hcount := countP_chis (hprojects.sound α hα)
      have hbound := shownPairs_le n E α
      rw [countP_not_eq, hlength, hperm.countP_eq, hcount]
      omega
    have hstages := (hdefined.trans hprojects).bind (hgreater.projects c hc)
      (Q := fun α => q + (c - 1) ≤ shownPairs n E α) (shownPairs_dependsUpTo hexprs)
      hdetermined
    refine hstages.congr (fun α => ?_) fun α => Iff.rfl
    simp [and_assoc]

end OrthogonalBy

end LatinSquares.Generator
