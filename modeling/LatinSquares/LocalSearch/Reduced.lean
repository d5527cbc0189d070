/-
# What `reduce` leaves

After the last loops the clauses that contain a fixed literal are units, and the lists of the
other variables have the occurrences in the clauses that are left.
-/

import LatinSquares.LocalSearch.Units

namespace LatinSquares.LocalSearch

open LatinSquares.Math

open UnitPropagation (strip mem_strip)

namespace HillClimbingSolver

variable {s s₁ : HillClimbingSolver} {index n number : Nat} {toDelete : Nat → Option Nat}
variable {literals : List Literal}

/-- The two solvers differ in the clauses and their lists at most. -/
def SameBut (s₁ s : HillClimbingSolver) : Prop :=
  s = { s₁ with
    clauses := s.clauses
    literalToClauseWithPositiveValue := s.literalToClauseWithPositiveValue
    literalToClauseWithNegativeValue := s.literalToClauseWithNegativeValue }

theorem SameBut.refl (s : HillClimbingSolver) : SameBut s s := rfl

theorem SameBut.trans {s₂ s₃ : HillClimbingSolver} (h : SameBut s₁ s₂) (h' : SameBut s₂ s₃) :
    SameBut s₁ s₃ := by
  unfold SameBut at *
  rw [h'] at *
  rw [h]

theorem sameBut_setClausesWith (s : HillClimbingSolver) (l : Literal) (indices : List Nat) :
    SameBut s (s.setClausesWith l indices) := by
  unfold SameBut setClausesWith
  split <;> rfl

/-- Every literal of a clause finds an entry to erase. -/
theorem exists_foldlM_eraseEntry
    (hcount : ∀ l, literals.count l ≤ (s.clausesWith l).count index) :
    ∃ s', literals.foldlM (eraseEntry index) s = some s' ∧ SameBut s s' ∧ s'.clauses = s.clauses ∧
      ∀ l i, (s'.clausesWith l).count i =
        (s.clausesWith l).count i - if i = index then literals.count l else 0 := by
  induction literals generalizing s with
  | nil => exact ⟨s, rfl, SameBut.refl s, rfl, fun l i => by simp⟩
  | cons literal literals ih =>
      have hmem : index ∈ s.clausesWith literal := by
        have hle := hcount literal
        rw [List.count_cons_self] at hle
        exact List.count_pos_iff.mp (by omega)
      let next := s.setClausesWith literal ((s.clausesWith literal).erase index)
      have hnext (l : Literal) (i : Nat) : (next.clausesWith l).count i =
          (s.clausesWith l).count i - if i = index ∧ l = literal then 1 else 0 := by
        dsimp only [next]
        rw [clausesWith_setClausesWith]
        by_cases hl : l = literal
        · subst hl
          rw [if_pos rfl, List.count_erase]
          by_cases hi : i = index
          · simp [hi]
          · simp [hi, Ne.symm hi]
        · simp [hl]
      obtain ⟨s', hfold, hsame, hclauses, htables⟩ := ih (s := next) fun l => by
        have hle := hcount l
        rw [List.count_cons] at hle
        rw [hnext]
        by_cases hl : l = literal
        · rw [if_pos (beq_iff_eq.mpr hl.symm)] at hle
          rw [if_pos ⟨rfl, hl⟩]
          exact Nat.le_sub_one_of_lt hle
        · rw [if_neg fun h => hl h.2]
          exact (Nat.le_add_right _ _).trans hle
      refine ⟨s', ?_, (sameBut_setClausesWith s _ _).trans hsame,
        hclauses.trans clauses_setClausesWith, ?_⟩
      · rw [List.foldlM_cons, eraseEntry, if_pos hmem]
        exact hfold
      · intro l i
        rw [htables, hnext, List.count_cons]
        by_cases hi : i = index
        · by_cases hl : l = literal
          · subst hl
            simp [hi]
            omega
          · simp [hi, hl, Ne.symm hl]
        · simp [hi]

/-- The clauses with an index below `n` that were noted have been shrunk. -/
structure Shrunk (s₁ : HillClimbingSolver) (toDelete : Nat → Option Nat) (n : Nat)
    (s : HillClimbingSolver) : Prop where
  same : SameBut s₁ s
  length_clauses : s.clauses.length = s₁.clauses.length
  untouched : ∀ i, n ≤ i ∨ toDelete i = none → s.clause i = s₁.clause i ∧
    ∀ l, (s.clausesWith l).count i = (s₁.clausesWith l).count i
  shrunk : ∀ i < n, ∀ number, toDelete i = some number →
    ∃ l ∈ (s₁.clause i).literals, l.number = number ∧ s.clause i = ⟨[l]⟩ ∧
      ∀ l', (s.clausesWith l').count i =
        (s₁.clausesWith l').count i - (s₁.clause i).literals.count l'

theorem shrunk_zero (s₁ : HillClimbingSolver) (toDelete : Nat → Option Nat) :
    Shrunk s₁ toDelete 0 s₁ where
  same := SameBut.refl s₁
  length_clauses := rfl
  untouched _ _ := ⟨rfl, fun _ => rfl⟩
  shrunk i hi := absurd hi (Nat.not_lt_zero i)

theorem Shrunk.skip (h : Shrunk s₁ toDelete n s) (hnone : toDelete n = none) :
    Shrunk s₁ toDelete (n + 1) s where
  same := h.same
  length_clauses := h.length_clauses
  untouched i hi := h.untouched i (hi.imp_left Nat.le_of_succ_le)
  shrunk i hi number hsome := by
    apply h.shrunk i _ number hsome
    rcases Nat.lt_succ_iff_lt_or_eq.mp hi with hlt | heq
    · exact hlt
    · rw [heq, hnone] at hsome
      cases hsome

/-- What a loop over the noted clauses needs: each has the literal it was noted for, and the
lists have its literals. -/
structure Shrinkable (s₁ : HillClimbingSolver) (toDelete : Nat → Option Nat) : Prop where
  literal : ∀ i number, toDelete i = some number →
    ∃ l ∈ (s₁.clause i).literals, l.number = number
  count : ∀ i number, toDelete i = some number → ∀ l,
    (s₁.clause i).literals.count l ≤ (s₁.clausesWith l).count i

theorem Shrunk.shrink (h : Shrunk s₁ toDelete n s) (hs : Shrinkable s₁ toDelete)
    (hn : n < s₁.clauses.length) (hsome : toDelete n = some number) :
    ∃ s', s.shrink n number = some s' ∧ Shrunk s₁ toDelete (n + 1) s' := by
  obtain ⟨hclause, htables⟩ := h.untouched n (Or.inl le_rfl)
  have hentries (l : Literal) : (s.clause n).literals.count l ≤ (s.clausesWith l).count n := by
    rw [hclause, htables]
    exact hs.count n number hsome l
  obtain ⟨s', hfold, hsame, hclauses, hcount⟩ := exists_foldlM_eraseEntry hentries
  obtain ⟨kept, hkept⟩ : ∃ kept,
      (s.clause n).literals.reverse.find? (fun l => l.number == number) = some kept := by
    obtain ⟨l, hl, hnumber⟩ := hs.literal n number hsome
    apply Option.isSome_iff_exists.mp
    rw [List.find?_isSome, hclause]
    exact ⟨l, List.mem_reverse.mpr hl, beq_iff_eq.mpr hnumber⟩
  refine ⟨{ s' with clauses := s'.clauses.set n ⟨[kept]⟩ }, ?_, ?_⟩
  · unfold HillClimbingSolver.shrink
    simp [hfold, hkept]
  · have hother (i : Nat) (hi : i ≠ n) :
        clause { s' with clauses := s'.clauses.set n ⟨[kept]⟩ } i = s.clause i := by
      unfold clause
      rw [List.getD_eq_getElem?_getD, List.getD_eq_getElem?_getD, ← hclauses]
      simp [List.getElem?_set_ne hi.symm]
    constructor
    · exact (h.same.trans hsame).trans rfl
    · show (s'.clauses.set n ⟨[kept]⟩).length = _
      rw [List.length_set, hclauses, h.length_clauses]
    · intro i hi
      have hne : i ≠ n := by
        rcases hi with hle | hnone
        · exact Nat.ne_of_gt hle
        · intro heq
          rw [heq, hsome] at hnone
          cases hnone
      obtain ⟨hclause', htables'⟩ := h.untouched i (hi.imp_left Nat.le_of_succ_le)
      apply And.intro ((hother i hne).trans hclause')
      intro l
      show (s'.clausesWith l).count i = _
      rw [hcount, if_neg hne, htables', Nat.sub_zero]
    · intro i hi number' hsome'
      rcases Nat.lt_succ_iff_lt_or_eq.mp hi with hlt | heq
      · obtain ⟨l, hl, hnumber, hunit, hcount'⟩ := h.shrunk i hlt number' hsome'
        refine ⟨l, hl, hnumber, (hother i hlt.ne).trans hunit, fun l' => ?_⟩
        show (s'.clausesWith l').count i = _
        rw [hcount, if_neg hlt.ne, hcount', Nat.sub_zero]
      · subst heq
        rw [hsome] at hsome'
        cases hsome'
        refine ⟨kept, ?_, ?_, ?_, fun l' => ?_⟩
        · rw [← hclause]
          exact List.mem_reverse.mp (List.mem_of_find?_eq_some hkept)
        · simpa using List.find?_some hkept
        · unfold clause
          rw [List.getD_eq_getElem?_getD, List.getElem?_set_self]
          · rfl
          · rwa [hclauses, h.length_clauses]
        · show (s'.clausesWith l').count i = _
          rw [hcount, if_pos rfl, htables, hclause]

/-- The loop over `toDelete` finds every entry it erases. -/
theorem Shrinkable.exists_shrinkAll (hs : Shrinkable s₁ toDelete) :
    ∃ s, s₁.shrinkAll toDelete = some s ∧ Shrunk s₁ toDelete s₁.clauses.length s := by
  unfold shrinkAll
  apply exists_foldlM_range (shrunk_zero s₁ toDelete)
  intro n hn s hshrunk
  cases hnote : toDelete n with
  | none => exact ⟨s, rfl, hshrunk.skip hnote⟩
  | some number => exact hshrunk.shrink hs hn hnote

/-- The lists of the numbers in the cache are empty in the end, the others stay. -/
theorem foldl_clearLists (numbers : List Nat) (s : HillClimbingSolver) :
    SameBut s (numbers.foldl clearLists s) ∧ (numbers.foldl clearLists s).clauses = s.clauses ∧
      ∀ l, (numbers.foldl clearLists s).clausesWith l =
        if l.number ∈ numbers then [] else s.clausesWith l := by
  induction numbers generalizing s with
  | nil => exact ⟨SameBut.refl s, rfl, fun l => by simp⟩
  | cons number numbers ih =>
      obtain ⟨hsame, hclauses, htables⟩ := ih (s.clearLists number)
      have hfirst : SameBut s (s.clearLists number) := rfl
      refine ⟨hfirst.trans hsame, hclauses, fun l => ?_⟩
      rw [List.foldl_cons, htables]
      by_cases hl : l.number = number
      · by_cases hmem : l.number ∈ numbers <;> simp [clausesWith, clearLists, hl]
      · by_cases hmem : l.number ∈ numbers <;> simp [clausesWith, clearLists, hl, hmem]

end HillClimbingSolver

section Cells

variable {m : MetaVariable} {metaVariables : List MetaVariable} {table : Nat → Option Nat}
variable {v k : Nat}

namespace MetaVariable

/-- The variables of the cell. -/
def cell (m : MetaVariable) : List Nat := (m.variables_.headD []).map Literal.number

/-- Every value of the domain lists one sign for every variable of the cell. -/
def ListsSigns (m : MetaVariable) : Prop :=
  ∀ entry ∈ m.variables_, (∀ v ∈ m.cell, ∃ value, ⟨v, value⟩ ∈ entry) ∧
    ∀ l ∈ entry, l.number ∈ m.cell ∧ l.negate ∉ entry

theorem mem_variables_of_mem_domain {entry : List Literal × UInt8} (h : entry ∈ m.domain) :
    entry.1 ∈ m.variables_ :=
  (List.of_mem_zip (a := entry.1) (b := entry.2) h).1

end MetaVariable

/-- The table has an entry for the variables of the cells, the last one that applies. -/
structure Indexed (metaVariables : List MetaVariable) (table : Nat → Option Nat) : Prop where
  sound : ∀ v k, table v = some k → ∃ m, metaVariables[k]? = some m ∧ v ∈ m.cell
  complete : ∀ m ∈ metaVariables, ∀ v ∈ m.cell, table v ≠ none

theorem indexed_of_eq_some (h : indexMetaVariables metaVariables = some table) :
    Indexed metaVariables table := by
  unfold indexMetaVariables at h
  induction metaVariables using List.reverseRecOn generalizing table with
  | nil =>
      cases h
      constructor
      · intro _ _ hsome
        cases hsome
      · intro _ hm
        cases hm
  | append_singleton metaVariables m ih =>
      rw [List.zipIdx_append, List.foldlM_append] at h
      obtain ⟨before, hbefore, hlast⟩ := Option.bind_eq_some_iff.mp h
      have hindexed := ih hbefore
      simp only [List.zipIdx_singleton, List.foldlM_cons, List.foldlM_nil, zero_add,
        Option.bind_eq_bind, Option.bind_eq_some_iff, Option.pure_def, Option.some.injEq] at hlast
      obtain ⟨_, ⟨first, hfirst, rfl⟩, rfl⟩ := hlast
      have hcell : m.cell = first.map Literal.number := by
        unfold MetaVariable.cell
        rw [List.headD_eq_head?_getD, hfirst]
        rfl
      have htable (v : Nat) : first.foldl (fun table (variable_ : Literal) =>
          Function.update table variable_.number (some metaVariables.length)) before v =
            if v ∈ m.cell then some metaVariables.length else before v := by
        rw [hcell, ← foldl_update_const, List.foldl_map]
      constructor
      · intro v k hsome
        rw [htable] at hsome
        split at hsome
        · next hv =>
            cases hsome
            exact ⟨m, by simp, hv⟩
        · obtain ⟨m', hm', hv⟩ := hindexed.sound v k hsome
          refine ⟨m', ?_, hv⟩
          rw [List.getElem?_append_left (List.getElem?_eq_some_iff.mp hm').1]
          exact hm'
      · intro m' hm' v hv
        rw [htable]
        split
        · exact Option.some_ne_none _
        · next hnot =>
            rcases List.mem_append.mp hm' with hold | hlast
            · exact hindexed.complete m' hold v hv
            · rw [List.mem_singleton.mp hlast] at hv
              exact absurd hv hnot

/-- Where no variable belongs to two cells, the table leads to the cell of each. -/
theorem Indexed.eq_some (h : Indexed metaVariables table)
    (hdisjoint : metaVariables.Pairwise fun m m' => ∀ v ∈ m.cell, v ∉ m'.cell)
    (hm : metaVariables[k]? = some m) (hv : v ∈ m.cell) : table v = some k := by
  obtain ⟨k', hk'⟩ := Option.ne_none_iff_exists'.mp (h.complete m (List.mem_of_getElem? hm) v hv)
  obtain ⟨m', hm', hv'⟩ := h.sound v k' hk'
  obtain ⟨hlt, rfl⟩ := List.getElem?_eq_some_iff.mp hm
  obtain ⟨hlt', rfl⟩ := List.getElem?_eq_some_iff.mp hm'
  rcases Nat.lt_trichotomy k k' with hless | heq | hless
  · exact absurd hv' (List.pairwise_iff_getElem.mp hdisjoint k k' hlt hlt' hless v hv)
  · rw [hk', heq]
  · exact absurd hv (List.pairwise_iff_getElem.mp hdisjoint k' k hlt' hlt hless v hv')

end Cells

section Fixed

variable {s₀ s : HillClimbingSolver} {toCompute : List Nat} {fixed : List Literal}
variable {r : Reduction} {l : Literal} {i v : Nat}

/-- What `reduce` makes of a solver. A variable is fixed when it is known in `propagated`. -/
structure ReducedTo (s₀ : HillClimbingSolver) (toCompute : List Nat) (s : HillClimbingSolver) :
    Prop where
  equivalent : ∀ α : Nat → Bool,
    (∀ c ∈ s.clauses, c.eval α = true) ↔ ∀ c ∈ s₀.clauses, c.eval α = true
  fixed : ∀ v, s.propagated v ≠ 2 → ∃ value : Bool, s.propagated v = value.toUInt8 ∧
    ⟨[⟨v, value⟩]⟩ ∈ s.clauses ∧ s.literalToClauseWithPositiveValue v = [] ∧
      s.literalToClauseWithNegativeValue v = []
  positive : ∀ v, s.propagated v = 2 → ∀ i, i ∈ s.literalToClauseWithPositiveValue v ↔
    i ∈ toCompute ∧ ⟨v, true⟩ ∈ (s.clause i).literals
  negative : ∀ v, s.propagated v = 2 → ∀ i, i ∈ s.literalToClauseWithNegativeValue v ↔
    i ∈ toCompute ∧ ⟨v, false⟩ ∈ (s.clause i).literals
  domains : ∀ (k : Nat) m, s₀.metaVariables[k]? = some m → ∃ m', s.metaVariables[k]? = some m' ∧
    m'.domain = m.domain.filter fun entry => entry.1.all fun l =>
      s.propagated l.number == 2 || s.propagated l.number == l.value.toUInt8

namespace Fixed

theorem propagated_of_mem (h : Fixed s₀ toCompute fixed r) (hl : l ∈ fixed) :
    r.solver.propagated l.number = l.value.toUInt8 := by
  obtain ⟨number, value⟩ := l
  rw [h.propagated]
  cases value with
  | true => rw [if_pos hl]; rfl
  | false =>
      have hnot : (⟨number, true⟩ : Literal) ∉ fixed := by
        intro htrue
        have heq := List.inj_on_of_nodup_map h.nodup htrue hl rfl
        cases heq
      rw [if_neg hnot, if_pos hl]
      rfl

theorem propagated_eq_two_iff (h : Fixed s₀ toCompute fixed r) :
    r.solver.propagated v = 2 ↔ v ∉ fixed.map Literal.number := by
  constructor
  · intro htwo hmem
    obtain ⟨l, hl, rfl⟩ := List.mem_map.mp hmem
    rw [h.propagated_of_mem hl] at htwo
    cases hvalue : l.value <;> rw [hvalue] at htwo <;> cases htwo
  · intro hnot
    have hother : ∀ value, (⟨v, value⟩ : Literal) ∉ fixed := fun value hmem =>
      hnot (List.mem_map.mpr ⟨_, hmem, rfl⟩)
    rw [h.propagated, if_neg (hother true), if_neg (hother false)]

theorem clause_count_le (h : Fixed s₀ toCompute fixed r) (hr : Reducible s₀ toCompute)
    (hi : i ∈ toCompute) (l : Literal) :
    (r.solver.clause i).literals.count l ≤ (r.solver.clausesWith l).count i := by
  rw [h.clausesWith, hr.count_clausesWith, h.clause, if_pos hi, if_pos hi]
  exact List.filter_sublist.count_le l

/-- The notes lead to literals of the clauses. -/
theorem shrinkable (h : Fixed s₀ toCompute fixed r) (hr : Reducible s₀ toCompute) :
    HillClimbingSolver.Shrinkable r.solver r.toDelete where
  literal i number hsome := by
    obtain ⟨hi, l, hl, hnumber, hmem⟩ := h.toDelete i number hsome
    refine ⟨l, ?_, hnumber⟩
    rw [h.clause, if_pos hi]
    apply mem_strip.mpr
    apply And.intro hmem
    -- only one literal of a variable is fixed
    intro hnegate
    have heq := List.inj_on_of_nodup_map h.nodup hnegate hl l.number_negate
    exact (Bool.not_eq_self l.value).mp (congrArg Literal.value heq)
  count i number hsome l := h.clause_count_le hr (h.toDelete i number hsome).1 l

/-- The clauses that the last loops leave. -/
theorem propagated_clauses (h : Fixed s₀ toCompute fixed r) (hr : Reducible s₀ toCompute)
    (hs : HillClimbingSolver.Shrunk r.solver r.toDelete r.solver.clauses.length s) :
    UnitPropagation.Propagated Literal.negate {i | i < s₀.clauses.length}
      (fun i => (s₀.clause i).literals) (fun i => (s.clause i).literals) fixed where
  entailed T hT hbefore l hl := by
    classical
    -- a consistent assignment of literals comes from one of variables
    have hvalue (x : Literal) : T x ↔ x.Holds fun number => decide (T ⟨number, true⟩) := by
      obtain ⟨number, value⟩ := x
      cases value with
      | true => simp [Literal.Holds]
      | false =>
          have hfalse : T ⟨number, false⟩ ↔ ¬ T ⟨number, true⟩ := hT ⟨number, true⟩
          rw [hfalse]
          simp [Literal.Holds]
    apply (hvalue l).mpr
    refine h.entailed _ (fun i hi => Clause.eval_iff_holds.mpr ?_) l hl
    obtain ⟨x, hx, htrue⟩ := hbefore i hi
    exact ⟨x, hx, (hvalue x).mp htrue⟩
  unit l hl := by
    obtain ⟨i, hi, hunit⟩ := h.unit l hl
    refine ⟨i, hi, ?_⟩
    cases hnote : r.toDelete i with
    | none => rw [(hs.untouched i (Or.inr hnote)).1, hunit]
    | some number =>
        obtain ⟨l', hl', -, hclause, -⟩ := hs.shrunk i (by rwa [h.length_clauses]) number hnote
        rw [hunit, List.mem_singleton] at hl'
        rw [hclause, hl']
  shape i hi := by
    cases hnote : r.toDelete i with
    | none =>
        rw [(hs.untouched i (Or.inr hnote)).1, h.clause]
        split
        · exact Or.inr (Or.inl rfl)
        · exact Or.inl rfl
    | some number =>
        obtain ⟨-, l, hl, hnumber, hmem⟩ := h.toDelete i number hnote
        obtain ⟨l', hl', hnumber', hclause, -⟩ :=
          hs.shrunk i (by rwa [h.length_clauses]) number hnote
        have heq : l' = l := by
          apply (Literal.eq_or_eq_negate (hnumber'.trans hnumber.symm)).resolve_right
          intro hnegate
          apply hr.tautologyFree i l hmem
          rw [← hnegate]
          exact h.mem_of_mem_clause hl'
        rw [hclause, heq]
        exact Or.inr (Or.inr ⟨l, hl, hmem, rfl⟩)

/-- The lists of an unfixed variable have an entry for every occurrence in the clauses that are
left. -/
theorem count_shrunk (h : Fixed s₀ toCompute fixed r) (hr : Reducible s₀ toCompute)
    (hs : HillClimbingSolver.Shrunk r.solver r.toDelete r.solver.clauses.length s)
    (hl : l.number ∉ fixed.map Literal.number) (i : Nat) :
    (s.clausesWith l).count i = if i ∈ toCompute then (s.clause i).literals.count l else 0 := by
  have hbefore : (r.solver.clausesWith l).count i =
      if i ∈ toCompute then (r.solver.clause i).literals.count l else 0 := by
    rw [h.clausesWith, hr.count_clausesWith, h.count_clause hl]
  have hsame (huntouched : r.solver.clauses.length ≤ i ∨ r.toDelete i = none) :
      (s.clausesWith l).count i = if i ∈ toCompute then (s.clause i).literals.count l else 0 := by
    obtain ⟨hclause, hcount⟩ := hs.untouched i huntouched
    rw [hcount, hclause, hbefore]
  cases hnote : r.toDelete i with
  | none => exact hsame (Or.inr hnote)
  | some number =>
      rcases Nat.lt_or_ge i r.solver.clauses.length with hlt | hge
      · obtain ⟨l', hl', hnumber, hclause, hcount⟩ := hs.shrunk i hlt number hnote
        obtain ⟨hi, x, hx, hnumber', -⟩ := h.toDelete i number hnote
        have hother : l ∉ (s.clause i).literals := by
          rw [hclause]
          intro hmem
          apply hl
          rw [List.mem_singleton.mp hmem, hnumber, ← hnumber']
          exact List.mem_map_of_mem hx
        rw [if_pos hi] at hbefore
        rw [hcount, hbefore, Nat.sub_self, if_pos hi, List.count_eq_zero_of_not_mem hother]
      · exact hsame (Or.inl hge)

theorem mem_clausesWith (h : Fixed s₀ toCompute fixed r) (hr : Reducible s₀ toCompute)
    (hs : HillClimbingSolver.Shrunk r.solver r.toDelete r.solver.clauses.length s)
    (hl : l.number ∉ fixed.map Literal.number) :
    i ∈ s.clausesWith l ↔ i ∈ toCompute ∧ l ∈ (s.clause i).literals := by
  rw [← List.count_pos_iff, h.count_shrunk hr hs hl]
  by_cases hi : i ∈ toCompute
  · rw [if_pos hi, List.count_pos_iff, and_iff_right hi]
  · rw [if_neg hi]
    exact iff_of_false (Nat.lt_irrefl 0) fun hboth => hi hboth.1

/-- Clauses only lose literals. -/
theorem sublist_shrunk (h : Fixed s₀ toCompute fixed r)
    (hs : HillClimbingSolver.Shrunk r.solver r.toDelete r.solver.clauses.length s) (i : Nat) :
    (s.clause i).literals.Sublist (s₀.clause i).literals := by
  have hsame (huntouched : r.solver.clauses.length ≤ i ∨ r.toDelete i = none) :
      (s.clause i).literals.Sublist (s₀.clause i).literals := by
    rw [(hs.untouched i huntouched).1, h.clause]
    split
    · exact List.filter_sublist
    · exact List.Sublist.refl _
  cases hnote : r.toDelete i with
  | none => exact hsame (Or.inr hnote)
  | some number =>
      rcases Nat.lt_or_ge i r.solver.clauses.length with hlt | hge
      · obtain ⟨l', hl', -, hclause, -⟩ := hs.shrunk i hlt number hnote
        rw [hclause]
        exact List.singleton_sublist.mpr (h.mem_of_mem_clause hl')
      · exact hsame (Or.inl hge)

/-- The values left in a domain are those that agree with all fixed literals. -/
theorem agreesOn_eq (h : Fixed s₀ toCompute fixed r) {k : Nat} {m : MetaVariable}
    (hindexed : Indexed s₀.metaVariables s₀.literalToMetaVariable)
    (hdisjoint : s₀.metaVariables.Pairwise fun m m' => ∀ v ∈ m.cell, v ∉ m'.cell)
    (hm : s₀.metaVariables[k]? = some m) (hsigns : m.ListsSigns) {entry : List Literal}
    (hentry : entry ∈ m.variables_) :
    agreesOn s₀ fixed k entry = entry.all fun l =>
      r.solver.propagated l.number == 2 || r.solver.propagated l.number == l.value.toUInt8 := by
  obtain ⟨hlists, hsingle⟩ := hsigns entry hentry
  rw [Bool.eq_iff_iff, agreesOn, List.all_eq_true, List.all_eq_true]
  simp only [decide_eq_true_eq, Bool.or_eq_true, beq_iff_eq]
  constructor
  · intro hagrees l hl
    by_cases hfixed : l.number ∈ fixed.map Literal.number
    · obtain ⟨x, hx, hnumber⟩ := List.mem_map.mp hfixed
      have htable : s₀.literalToMetaVariable x.number = some k := by
        rw [hnumber]
        exact hindexed.eq_some hdisjoint hm (hsingle l hl).1
      have hmem : x ∈ entry := (hagrees x hx).resolve_left fun hne => hne htable
      have heq : x = l := by
        apply (Literal.eq_or_eq_negate hnumber).resolve_right
        intro hnegate
        exact (hsingle l hl).2 (hnegate ▸ hmem)
      exact Or.inr (heq ▸ h.propagated_of_mem hx)
    · exact Or.inl (h.propagated_eq_two_iff.mpr hfixed)
  · intro hconsistent x hx
    apply or_iff_not_imp_left.mpr
    intro htable
    obtain ⟨m', hm', hcell⟩ := hindexed.sound x.number k (not_not.mp htable)
    cases hm.symm.trans hm'
    obtain ⟨value, hvalue⟩ := hlists x.number hcell
    have hpropagated := h.propagated_of_mem hx
    have heq : value = x.value := by
      rcases hconsistent _ hvalue with htwo | hvalue'
      · exact absurd (List.mem_map_of_mem hx) (h.propagated_eq_two_iff.mp htwo)
      · rw [hpropagated] at hvalue'
        cases value <;> cases hx' : x.value <;> rw [hx'] at hvalue' <;> first | rfl | cases hvalue'
    rw [heq] at hvalue
    exact hvalue

end Fixed

end Fixed

namespace HillClimbingSolver

variable {clauses : List Clause} {toCompute : List Nat} {metaVariables : List MetaVariable}
variable {weights : Nat → UInt32} {net : Net} {s₀ s : HillClimbingSolver}

theorem forall_mem_clauses {s : HillClimbingSolver} {p : Clause → Prop} :
    (∀ c ∈ s.clauses, p c) ↔ ∀ i < s.clauses.length, p (s.clause i) := by
  rw [List.forall_mem_iff_getElem]
  apply forall_congr'
  intro i
  apply forall_congr'
  intro hi
  rw [clause, List.getD_eq_getElem _ _ hi]

/-- What the constructor has built when it calls `reduce`. -/
theorem reducible_unreduced (htautology : ∀ c ∈ clauses, c.TautologyFree)
    (h : unreduced clauses toCompute weights net metaVariables = some s₀) :
    Reducible s₀ toCompute ∧ Indexed s₀.metaVariables s₀.literalToMetaVariable ∧
      s₀.metaVariables = metaVariables := by
  obtain ⟨table, htable, hs⟩ := Option.bind_eq_some_iff.mp h
  cases hs
  refine ⟨⟨fun i => ?_, fun l i => ?_, fun _ => rfl⟩, indexed_of_eq_some htable, rfl⟩
  · rcases Nat.lt_or_ge i clauses.length with hlt | hge
    · unfold clause
      rw [List.getD_eq_getElem _ _ hlt]
      exact htautology _ (List.getElem_mem hlt)
    · unfold clause
      rw [List.getD_eq_default _ _ hge]
      exact fun l hl => absurd hl List.not_mem_nil
  · obtain ⟨number, value⟩ := l
    cases value with
    | true => exact count_occurrenceTable clauses toCompute
    | false => exact count_occurrenceTable clauses toCompute

/-- Every run of `reduce` that starts with the given clauses and meta variables ends, with the
outer loop bounded in any way that is large enough, and leaves what it should. -/
def Reduces (clauses : List Clause) (toCompute : List Nat) (metaVariables : List MetaVariable) :
    Prop :=
  ∀ weights net s₀, unreduced clauses toCompute weights net metaVariables = some s₀ →
    ∃ n s, (∀ fuel, n ≤ fuel → s₀.reduce fuel = some s) ∧ ReducedTo s₀ toCompute s

end HillClimbingSolver

open HillClimbingSolver

variable {s₀ s : HillClimbingSolver} {clauses : List Clause} {toCompute : List Nat}
variable {metaVariables : List MetaVariable} {fixed : List Literal} {r : Reduction}

/-- The state in which the outer loop ends leads to one that is reduced. -/
theorem Fixed.reducedTo (h : Fixed s₀ toCompute fixed r) (hr : Reducible s₀ toCompute)
    (hindexed : Indexed s₀.metaVariables s₀.literalToMetaVariable)
    (hdisjoint : s₀.metaVariables.Pairwise fun m m' => ∀ v ∈ m.cell, v ∉ m'.cell)
    (hsigns : ∀ m ∈ s₀.metaVariables, m.ListsSigns)
    (hs : Shrunk r.solver r.toDelete r.solver.clauses.length s) :
    ReducedTo s₀ toCompute (r.unitPropagationCache.foldl clearLists s) := by
  obtain ⟨hcleared, hclauses, htables⟩ := foldl_clearLists r.unitPropagationCache s
  have hpropagated : (r.unitPropagationCache.foldl clearLists s).propagated =
      r.solver.propagated := by
    rw [hcleared, hs.same]
  have hmeta : (r.unitPropagationCache.foldl clearLists s).metaVariables =
      r.solver.metaVariables := by
    rw [hcleared, hs.same]
  have hlength : s.clauses.length = s₀.clauses.length := hs.length_clauses.trans h.length_clauses
  have hpropagation := h.propagated_clauses hr hs
  generalize r.unitPropagationCache.foldl clearLists s = s' at *
  have hunfixed (v : Nat) (hv : s'.propagated v = 2) (value : Bool) (i : Nat) :
      i ∈ s'.clausesWith ⟨v, value⟩ ↔ i ∈ toCompute ∧ ⟨v, value⟩ ∈ (s'.clause i).literals := by
    rw [hpropagated, h.propagated_eq_two_iff] at hv
    rw [htables, if_neg (by rwa [h.cache]), h.mem_clausesWith hr hs hv, HillClimbingSolver.clause,
      HillClimbingSolver.clause, hclauses]
  constructor
  · intro α
    rw [forall_mem_clauses, forall_mem_clauses, hclauses, hlength]
    simp only [Clause.eval_iff_holds]
    have hiff := hpropagation.holds_iff (Literal.consistent_holds α)
    have hclause : ∀ i, s'.clause i = s.clause i := fun i => by
      rw [HillClimbingSolver.clause, HillClimbingSolver.clause, hclauses]
    simpa [hclause] using hiff
  · intro v hv
    rw [hpropagated] at hv
    obtain ⟨l, hl, rfl⟩ := List.mem_map.mp (not_not.mp (mt h.propagated_eq_two_iff.mpr hv))
    have hempty (value : Bool) : s'.clausesWith ⟨l.number, value⟩ = [] := by
      rw [htables, h.cache, if_pos (List.mem_map_of_mem hl)]
    obtain ⟨i, hi, hunit⟩ := hpropagation.unit l hl
    refine ⟨l.value, ?_, ?_, hempty true, hempty false⟩
    · rw [hpropagated, h.propagated_of_mem hl]
    · have hmem : s.clause i ∈ s.clauses := by
        have hlt : i < s.clauses.length := by rwa [hlength]
        rw [HillClimbingSolver.clause, List.getD_eq_getElem _ _ hlt]
        exact List.getElem_mem hlt
      have heq : s.clause i = ⟨[l]⟩ := congrArg Clause.mk hunit
      rw [hclauses, ← heq]
      exact hmem
  · exact fun v hv i => hunfixed v hv true i
  · exact fun v hv i => hunfixed v hv false i
  · intro k m hm
    have hk : k < r.solver.metaVariables.length := by
      rw [h.length_metaVariables]
      exact (List.getElem?_eq_some_iff.mp hm).1
    have hm' := List.getElem?_eq_getElem hk
    refine ⟨_, by rw [hmeta]; exact hm', ?_⟩
    rw [(h.narrowed k m _ hm hm').domain, hpropagated]
    apply List.filter_congr
    intro entry hentry
    exact h.agreesOn_eq hindexed hdisjoint hm (hsigns m (List.mem_of_getElem? hm))
      (MetaVariable.mem_variables_of_mem_domain hentry)

namespace HillClimbingSolver

/-- `reduce` ends and keeps clauses, lists and domains in step, for meta variables of which
no two share a variable. -/
theorem reduces_of_disjoint (htautology : ∀ c ∈ clauses, c.TautologyFree)
    (hsigns : ∀ m ∈ metaVariables, m.ListsSigns)
    (hdisjoint : metaVariables.Pairwise fun m m' => ∀ v ∈ m.cell, v ∉ m'.cell) :
    Reduces clauses toCompute metaVariables := by
  intro weights net s₀ hs₀
  obtain ⟨hr, hindexed, hmeta⟩ := reducible_unreduced htautology hs₀
  rw [← hmeta] at hsigns hdisjoint
  obtain ⟨fixed, r, h, hloop⟩ := Fixed.exists_propagate hr
    ((s₀.clauses.flatMap Clause.literals).length + 1) (fixed_nil hr true) (by simp)
  obtain ⟨s, hshrink, hs⟩ := (h.shrinkable hr).exists_shrinkAll
  refine ⟨(s₀.clauses.flatMap Clause.literals).length + 2,
    r.unitPropagationCache.foldl clearLists s, fun fuel hfuel => ?_,
    h.reducedTo hr hindexed hdisjoint hsigns hs⟩
  obtain ⟨fuel, rfl⟩ : ∃ k, fuel = k + 1 := ⟨fuel - 1, by omega⟩
  simp [reduce, hloop fuel (by omega), hshrink]

/-- A cell of order 2 whose symbol is given by one variable. -/
def binaryCell (columnIndex : UInt8) (v : Nat) : MetaVariable where
  matrixIndex := 0
  rowIndex := 0
  columnIndex
  variables_ := [[⟨v, true⟩], [⟨v, false⟩]]
  values := [1, 2]

theorem listsSigns_binaryCell (columnIndex : UInt8) (v : Nat) :
    (binaryCell columnIndex v).ListsSigns := by
  intro entry hentry
  simp only [binaryCell, List.mem_cons, List.not_mem_nil, or_false] at hentry
  rcases hentry with rfl | rfl <;> simp [MetaVariable.cell, binaryCell, Literal.negate]

/-- The unit clause of the first variable fixes the second one, too. -/
theorem reduces_binaryCells :
    (∃ s₀, unreduced [⟨[⟨1, true⟩]⟩, ⟨[⟨1, false⟩, ⟨2, false⟩]⟩] [0, 1] (fun _ => 1) ⟨[], []⟩
      [binaryCell 0 1, binaryCell 1 2] = some s₀) ∧
    Reduces [⟨[⟨1, true⟩]⟩, ⟨[⟨1, false⟩, ⟨2, false⟩]⟩] [0, 1]
      [binaryCell 0 1, binaryCell 1 2] := by
  constructor
  · exact ⟨_, rfl⟩
  · apply reduces_of_disjoint
    · intro clause hclause
      simp only [List.mem_cons, List.not_mem_nil, or_false] at hclause
      rcases hclause with rfl | rfl <;> simp [Clause.TautologyFree, Literal.negate]
    · intro m hm
      simp only [List.mem_cons, List.not_mem_nil, or_false] at hm
      rcases hm with rfl | rfl
      · exact listsSigns_binaryCell 0 1
      · exact listsSigns_binaryCell 1 2
    · simp [MetaVariable.cell, binaryCell]

/-- `literal_to_meta_variable` has one entry for a variable. If two cells share the variable
of a unit clause, only the domain of the later cell is narrowed. -/
theorem not_reduces_sharedVariable :
    ¬ ∀ (clauses : List Clause) (toCompute : List Nat) (metaVariables : List MetaVariable),
      (∀ c ∈ clauses, c.TautologyFree) → (∀ m ∈ metaVariables, m.ListsSigns) →
        Reduces clauses toCompute metaVariables := by
  intro hclaim
  have hreduces : Reduces [⟨[⟨1, true⟩]⟩] [] [binaryCell 0 1, binaryCell 1 1] := by
    apply hclaim
    · simp [Clause.TautologyFree, Literal.negate]
    · intro m hm
      simp only [List.mem_cons, List.not_mem_nil, or_false] at hm
      rcases hm with rfl | rfl
      · exact listsSigns_binaryCell 0 1
      · exact listsSigns_binaryCell 1 1
  obtain ⟨n, s, hloop, hreduced⟩ := hreduces (fun _ => 1) ⟨[], []⟩ _ rfl
  have hrun := hloop (n + 2) (Nat.le_add_right n 2)
  have hpropagated : s.propagated 1 = 1 := Option.some.inj ((congrArg
    (Option.map fun s : HillClimbingSolver => s.propagated 1) hrun).symm.trans rfl)
  have hkept : s.metaVariables[0]? = some (binaryCell 0 1) := Option.some.inj ((congrArg
    (Option.map fun s : HillClimbingSolver => s.metaVariables[0]?) hrun).symm.trans rfl)
  obtain ⟨m', hm', hdomain⟩ := hreduced.domains 0 (binaryCell 0 1) rfl
  cases hkept.symm.trans hm'
  have hmem : (([⟨1, false⟩], 2) : List Literal × UInt8) ∈ (binaryCell 0 1).domain := by decide
  rw [hdomain, List.mem_filter] at hmem
  have hagrees : s.propagated 1 = 2 ∨ s.propagated 1 = false.toUInt8 := by simpa using hmem.2
  rw [hpropagated] at hagrees
  exact absurd hagrees (by decide)

end HillClimbingSolver

end LatinSquares.LocalSearch
