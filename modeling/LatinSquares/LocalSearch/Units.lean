/-
# The literals `reduce` fixes

The outer loop of `reduce` keeps an account of the literals it has fixed: the clauses are the
old ones without the literals that are false, every fixed literal has a unit clause and
follows from the old clauses, and the domains keep the values that agree with it. Every
further round fixes a variable, so the loop ends.
-/

import LatinSquares.LocalSearch.Reduce

namespace LatinSquares.LocalSearch

open LatinSquares.Math

open UnitPropagation (strip mem_strip)

/-- The same cell, with the values whose entries have the property. -/
structure MetaVariable.Narrowed (p : List Literal → Bool) (m m' : MetaVariable) : Prop where
  matrixIndex : m'.matrixIndex = m.matrixIndex
  rowIndex : m'.rowIndex = m.rowIndex
  columnIndex : m'.columnIndex = m.columnIndex
  domain : m'.domain = m.domain.filter fun entry => p entry.1

namespace MetaVariable

variable {m m' : MetaVariable} {p : List Literal → Bool}

theorem Narrowed.congr {q : List Literal → Bool} (h : m.Narrowed p m')
    (hpq : ∀ entry, p entry = q entry) : m.Narrowed q m' := by
  have heq : p = q := funext hpq
  rwa [← heq]

theorem domain_narrow (literal : Literal) (m : MetaVariable) :
    (m.narrow literal).domain = m.domain.filter fun entry => literal ∈ entry.1 := by
  have hzip := List.zip_unzip (m.domain.filter fun entry => literal ∈ entry.1)
  rwa [List.unzip_eq_map] at hzip

theorem Narrowed.narrow (h : m.Narrowed p m') (literal : Literal) :
    m.Narrowed (fun entry => p entry && literal ∈ entry) (m'.narrow literal) where
  matrixIndex := h.matrixIndex
  rowIndex := h.rowIndex
  columnIndex := h.columnIndex
  domain := by
    rw [domain_narrow, h.domain, List.filter_filter]
    apply List.filter_congr
    intro entry _
    exact Bool.and_comm _ _

end MetaVariable

/-- The entry sets the fixed literals that belong to the meta variable `k`. -/
def agreesOn (s₀ : HillClimbingSolver) (fixed : List Literal) (k : Nat) (entry : List Literal) :
    Bool :=
  fixed.all fun l => s₀.literalToMetaVariable l.number ≠ some k ∨ l ∈ entry

/-- What the loop has done to the solver `s₀` once it has fixed the given literals. -/
structure Fixed (s₀ : HillClimbingSolver) (toCompute : List Nat) (fixed : List Literal)
    (r : Reduction) : Prop where
  solver : r.solver = { s₀ with
    clauses := r.solver.clauses
    propagated := r.solver.propagated
    metaVariables := r.solver.metaVariables }
  cache : r.unitPropagationCache = fixed.map Literal.number
  nodup : (fixed.map Literal.number).Nodup
  propagated : ∀ v, r.solver.propagated v =
    if ⟨v, true⟩ ∈ fixed then 1 else if ⟨v, false⟩ ∈ fixed then 0 else 2
  length_clauses : r.solver.clauses.length = s₀.clauses.length
  clause : ∀ i, (r.solver.clause i).literals =
    if i ∈ toCompute then strip Literal.negate fixed (s₀.clause i).literals
    else (s₀.clause i).literals
  unit : ∀ l ∈ fixed, ∃ i < s₀.clauses.length, (r.solver.clause i).literals = [l]
  entailed : ∀ α : Nat → Bool, (∀ i < s₀.clauses.length, (s₀.clause i).eval α = true) →
    ∀ l ∈ fixed, l.Holds α
  toDelete : ∀ i number, r.toDelete i = some number →
    i ∈ toCompute ∧ ∃ l ∈ fixed, l.number = number ∧ l ∈ (s₀.clause i).literals
  noted : ∀ i ∈ toCompute, ∀ l ∈ fixed, l ∈ (s₀.clause i).literals → r.toDelete i ≠ none
  length_metaVariables : r.solver.metaVariables.length = s₀.metaVariables.length
  narrowed : ∀ (k : Nat) m m', s₀.metaVariables[k]? = some m →
    r.solver.metaVariables[k]? = some m' → m.Narrowed (agreesOn s₀ fixed k) m'

theorem HillClimbingSolver.literals_foldl_eraseNumber (number : Nat) (positions : List Nat)
    (clauses : List Clause) (i : Nat) :
    ((positions.foldl (fun clauses i => clauses.modify i (Clause.eraseNumber number))
      clauses).getD i ⟨[]⟩).literals =
        (List.eraseP fun x => x.number == number)^[positions.count i]
          (clauses.getD i ⟨[]⟩).literals := by
  have hiterate (n : Nat) (clause : Clause) : ((Clause.eraseNumber number)^[n] clause).literals =
      (List.eraseP fun x => x.number == number)^[n] clause.literals := by
    induction n generalizing clause with
    | zero => rfl
    | succ n ih =>
        rw [Function.iterate_succ_apply, Function.iterate_succ_apply, ih]
        rfl
  rw [List.getD_eq_getElem?_getD, List.getD_eq_getElem?_getD, getElem?_foldl_modify]
  cases clauses[i]? with
  | none => exact (Function.iterate_fixed rfl _).symm
  | some clause => exact hiterate _ clause

/-- What `reduce` needs of the solver it starts with. -/
structure Reducible (s₀ : HillClimbingSolver) (toCompute : List Nat) : Prop where
  tautologyFree : ∀ i, (s₀.clause i).TautologyFree
  count_clausesWith : ∀ l i, (s₀.clausesWith l).count i =
    if i ∈ toCompute then (s₀.clause i).literals.count l else 0
  unknown : ∀ v, s₀.propagated v = 2

variable {s₀ : HillClimbingSolver} {toCompute : List Nat} {fixed : List Literal} {r : Reduction}

theorem fixed_nil (h : Reducible s₀ toCompute) (b : Bool) :
    Fixed s₀ toCompute [] { solver := s₀, changed := b } where
  solver := rfl
  cache := rfl
  nodup := List.nodup_nil
  propagated v := h.unknown v
  length_clauses := rfl
  clause i := by simp [strip]
  unit l hl := absurd hl List.not_mem_nil
  entailed α _ l hl := absurd hl List.not_mem_nil
  toDelete i number hsome := by cases hsome
  noted i _ l hl := absurd hl List.not_mem_nil
  length_metaVariables := rfl
  narrowed k m m' hm hm' := by
    cases hm.symm.trans hm'
    exact ⟨rfl, rfl, rfl, by simp [agreesOn]⟩

theorem Reduction.metaVariables_fix_of_none {l : Literal}
    (h : r.solver.literalToMetaVariable l.number = none) :
    (r.fix l).solver.metaVariables = r.solver.metaVariables := by
  simp only [fix, h]

theorem Reduction.metaVariables_fix_of_some {l : Literal} {k : Nat}
    (h : r.solver.literalToMetaVariable l.number = some k) :
    (r.fix l).solver.metaVariables = r.solver.metaVariables.modify k (MetaVariable.narrow l) := by
  simp only [fix, h]

namespace Fixed

theorem setChanged (h : Fixed s₀ toCompute fixed r) (b : Bool) :
    Fixed s₀ toCompute fixed { r with changed := b } :=
  ⟨h.solver, h.cache, h.nodup, h.propagated, h.length_clauses, h.clause, h.unit, h.entailed,
    h.toDelete, h.noted, h.length_metaVariables, h.narrowed⟩

/-- The tables stay as they are. -/
theorem clausesWith (h : Fixed s₀ toCompute fixed r) (l : Literal) :
    r.solver.clausesWith l = s₀.clausesWith l := by
  rw [h.solver]
  rfl

theorem literalToMetaVariable (h : Fixed s₀ toCompute fixed r) :
    r.solver.literalToMetaVariable = s₀.literalToMetaVariable := by
  rw [h.solver]

/-- The literals of an unfixed variable are in the clauses where they were. -/
theorem count_clause (h : Fixed s₀ toCompute fixed r) {l : Literal}
    (hl : l.number ∉ fixed.map Literal.number) (i : Nat) :
    (r.solver.clause i).literals.count l = (s₀.clause i).literals.count l := by
  rw [h.clause]
  split
  · apply List.count_filter
    simp only [decide_not, Bool.not_eq_eq_eq_not, Bool.not_true, decide_eq_false_iff_not]
    intro hmem
    exact hl (List.mem_map.mpr ⟨_, hmem, l.number_negate⟩)
  · rfl

theorem mem_of_mem_clause (h : Fixed s₀ toCompute fixed r) {l : Literal} {i : Nat}
    (hl : l ∈ (r.solver.clause i).literals) : l ∈ (s₀.clause i).literals := by
  rw [h.clause] at hl
  split at hl
  · exact (mem_strip.mp hl).1
  · exact hl

/-- Erasing the false literal once for every entry of its list erases it everywhere. -/
theorem clause_fix (h : Fixed s₀ toCompute fixed r) (hr : Reducible s₀ toCompute) {l : Literal}
    (hnew : l.number ∉ fixed.map Literal.number) (i : Nat) :
    ((r.fix l).solver.clause i).literals =
      if i ∈ toCompute then (r.solver.clause i).literals.filter fun x => x ≠ l.negate
      else (r.solver.clause i).literals := by
  have herase : ((r.fix l).solver.clause i).literals =
      (List.eraseP fun x => x.number == l.number)^[(s₀.clausesWith l.negate).count i]
        (r.solver.clause i).literals := by
    rw [← h.clausesWith]
    apply HillClimbingSolver.literals_foldl_eraseNumber
  have hcount := hr.count_clausesWith l.negate i
  rw [herase, hcount]
  split
  · by_cases hmem : l.negate ∈ (s₀.clause i).literals
    · -- the clause has no other literal of this variable
      have honly : ∀ x ∈ (r.solver.clause i).literals,
          (x.number == l.number) = (x == l.negate) := by
        intro x hx
        rw [Bool.eq_iff_iff, beq_iff_eq, beq_iff_eq]
        constructor
        · intro hnumber
          apply (Literal.eq_or_eq_negate hnumber).resolve_left
          intro heq
          rw [heq] at hx
          exact hr.tautologyFree i l (h.mem_of_mem_clause hx) hmem
        · intro heq
          rw [heq, Literal.number_negate]
      have hle : (r.solver.clause i).literals.countP (fun x => x.number == l.number) ≤
          (s₀.clause i).literals.count l.negate := by
        rw [← h.count_clause (by exact hnew) i, List.count]
        exact (List.countP_congr fun x hx => by rw [honly x hx]).le
      rw [iterate_eraseP hle]
      apply List.filter_congr
      intro x hx
      rw [honly x hx, beq_eq_decide, decide_not]
    · have habsent : l.negate ∉ (r.solver.clause i).literals := fun hx =>
        hmem (h.mem_of_mem_clause hx)
      rw [List.count_eq_zero_of_not_mem hmem, Function.iterate_zero_apply, List.filter_eq_self.mpr]
      intro x hx
      apply decide_eq_true
      intro heq
      exact habsent (heq ▸ hx)
  · rfl

theorem propagated_fix (h : Fixed s₀ toCompute fixed r) {l : Literal}
    (hnew : l.number ∉ fixed.map Literal.number) (v : Nat) :
    (r.fix l).solver.propagated v = if ⟨v, true⟩ ∈ fixed ++ [l] then 1
      else if ⟨v, false⟩ ∈ fixed ++ [l] then 0 else 2 := by
  have hother : ∀ value, (⟨l.number, value⟩ : Literal) ∉ fixed := fun value hmem =>
    hnew (List.mem_map.mpr ⟨_, hmem, rfl⟩)
  obtain ⟨number, value⟩ := l
  show Function.update r.solver.propagated number value.toUInt8 v = _
  by_cases hv : v = number
  · subst hv
    rw [Function.update_self]
    cases value <;> simp [hother] <;> rfl
  · rw [Function.update_of_ne hv, h.propagated]
    simp [hv]

theorem toDelete_fix (h : Fixed s₀ toCompute fixed r) (l : Literal) (i : Nat) :
    (r.fix l).toDelete i = if i ∈ s₀.clausesWith l then some l.number else r.toDelete i := by
  rw [← h.clausesWith]
  exact foldl_update_const (r.solver.clausesWith l) (some l.number) r.toDelete i

theorem length_clauses_fix (r : Reduction) (l : Literal) :
    (r.fix l).solver.clauses.length = r.solver.clauses.length := by
  show (((r.solver.clausesWith l.negate).foldl (fun clauses i =>
    clauses.modify i (Clause.eraseNumber l.number)) r.solver.clauses)).length = _
  generalize r.solver.clausesWith l.negate = indices
  induction indices using List.reverseRecOn with
  | nil => rfl
  | append_singleton indices index ih =>
      rw [List.foldl_append, List.foldl_cons, List.foldl_nil, List.length_modify, ih]

theorem metaVariables_fix (h : Fixed s₀ toCompute fixed r) (l : Literal) (k : Nat) :
    (r.fix l).solver.metaVariables[k]? = r.solver.metaVariables[k]?.map fun m =>
      if s₀.literalToMetaVariable l.number = some k then m.narrow l else m := by
  rw [← h.literalToMetaVariable]
  cases htable : r.solver.literalToMetaVariable l.number with
  | none =>
      rw [Reduction.metaVariables_fix_of_none htable]
      simp
  | some k' =>
      rw [Reduction.metaVariables_fix_of_some htable, List.getElem?_modify]
      by_cases hk : k' = k <;> simp [hk]

/-- The clauses lose one literal more. -/
theorem strip_fix (h : Fixed s₀ toCompute fixed r) (hr : Reducible s₀ toCompute) {l : Literal}
    (hnew : l.number ∉ fixed.map Literal.number) (j : Nat) :
    ((r.fix l).solver.clause j).literals =
      if j ∈ toCompute then strip Literal.negate (fixed ++ [l]) (s₀.clause j).literals
      else (s₀.clause j).literals := by
  rw [h.clause_fix hr hnew, h.clause]
  split
  · rw [strip, strip, List.filter_filter]
    apply List.filter_congr
    intro x _
    have hnegate : x.negate = l ↔ x = l.negate := Literal.negate_eq_iff
    simp [hnegate, and_comm]
  · rfl

/-- The unit clauses stay. -/
theorem unit_fix (h : Fixed s₀ toCompute fixed r) (hr : Reducible s₀ toCompute) {l : Literal}
    {i : Nat} (hi : i < s₀.clauses.length) (hunit : (r.solver.clause i).literals = [l])
    (hnew : l.number ∉ fixed.map Literal.number) :
    ∀ x ∈ fixed ++ [l],
      ∃ j < s₀.clauses.length, ((r.fix l).solver.clause j).literals = [x] := by
  have hkeep (x : Literal) (j : Nat) (hx : x ≠ l.negate)
      (hsingle : (r.solver.clause j).literals = [x]) :
      ((r.fix l).solver.clause j).literals = [x] := by
    rw [h.clause_fix hr hnew, hsingle]
    simp [hx]
  intro x hx
  rcases List.mem_append.mp hx with hold | hlast
  · obtain ⟨j, hj, hsingle⟩ := h.unit x hold
    apply Exists.intro j
    apply And.intro hj
    apply hkeep x j _ hsingle
    intro heq
    exact hnew (List.mem_map.mpr ⟨x, hold, by rw [heq, Literal.number_negate]⟩)
  · rw [List.mem_singleton.mp hlast]
    apply Exists.intro i
    apply And.intro hi
    apply hkeep l i _ hunit
    intro heq
    exact (Bool.eq_not_self l.value).mp (congrArg Literal.value heq)

/-- The literal of a unit clause follows from the old clauses. -/
theorem entailed_fix (h : Fixed s₀ toCompute fixed r) {l : Literal} {i : Nat}
    (hi : i < s₀.clauses.length) (hunit : (r.solver.clause i).literals = [l]) {α : Nat → Bool}
    (hα : ∀ i < s₀.clauses.length, (s₀.clause i).eval α = true) :
    ∀ x ∈ fixed ++ [l], x.Holds α := by
  have hold := h.entailed α hα
  intro x hx
  rcases List.mem_append.mp hx with hmem | hlast
  · exact hold x hmem
  · rw [List.mem_singleton.mp hlast]
    have hholds := Clause.eval_iff_holds.mp (hα i hi)
    have hclause := h.clause i
    rw [hunit] at hclause
    split at hclause
    · exact UnitPropagation.entails_of_strip_eq (Literal.consistent_holds α) hold hholds
        hclause.symm
    · rwa [← hclause, UnitPropagation.holds_singleton] at hholds

/-- A clause that is noted for deletion has a fixed literal. -/
theorem exists_of_toDelete_fix (h : Fixed s₀ toCompute fixed r) (hr : Reducible s₀ toCompute)
    {l : Literal} {j number : Nat} (hsome : (r.fix l).toDelete j = some number) :
    j ∈ toCompute ∧ ∃ x ∈ fixed ++ [l], x.number = number ∧ x ∈ (s₀.clause j).literals := by
  rw [h.toDelete_fix] at hsome
  split at hsome
  · next hmem =>
      have hcount := List.count_pos_iff.mpr hmem
      rw [hr.count_clausesWith] at hcount
      split at hcount
      · next hj =>
          exact ⟨hj, l, by simp, Option.some.inj hsome, List.count_pos_iff.mp hcount⟩
      · exact absurd hcount (Nat.lt_irrefl 0)
  · obtain ⟨hj, x, hx, hnumber, hmem⟩ := h.toDelete j number hsome
    exact ⟨hj, x, List.mem_append_left _ hx, hnumber, hmem⟩

/-- Every clause with a fixed literal is noted for deletion. -/
theorem noted_fix (h : Fixed s₀ toCompute fixed r) (hr : Reducible s₀ toCompute) {l : Literal} :
    ∀ j ∈ toCompute, ∀ x ∈ fixed ++ [l], x ∈ (s₀.clause j).literals →
      (r.fix l).toDelete j ≠ none := by
  intro j hj x hx hmem
  rw [h.toDelete_fix]
  split
  · exact Option.some_ne_none _
  · next hnot =>
      rcases List.mem_append.mp hx with hold | hlast
      · exact h.noted j hj x hold hmem
      · exfalso
        apply hnot
        apply List.count_pos_iff.mp
        rw [hr.count_clausesWith, if_pos hj, ← List.mem_singleton.mp hlast]
        exact List.count_pos_iff.mpr hmem

/-- The cell of the literal keeps the values that agree with it, the others keep theirs. -/
theorem narrowed_fix (h : Fixed s₀ toCompute fixed r) {l : Literal} {k : Nat}
    {m m' : MetaVariable} (hm : s₀.metaVariables[k]? = some m)
    (hm' : (r.fix l).solver.metaVariables[k]? = some m') :
    m.Narrowed (agreesOn s₀ (fixed ++ [l]) k) m' := by
  rw [h.metaVariables_fix, Option.map_eq_some_iff] at hm'
  obtain ⟨m'', hm'', rfl⟩ := hm'
  have hold := h.narrowed k m m'' hm hm''
  split
  · next heq =>
      apply (hold.narrow l).congr
      intro entry
      simp [agreesOn, List.all_append, heq]
  · next hne =>
      apply hold.congr
      intro entry
      simp [agreesOn, List.all_append, hne]

/-- One more literal is fixed. -/
theorem fix (h : Fixed s₀ toCompute fixed r) (hr : Reducible s₀ toCompute) {l : Literal} {i : Nat}
    (hi : i < s₀.clauses.length) (hunit : (r.solver.clause i).literals = [l])
    (hnew : l.number ∉ fixed.map Literal.number) :
    Fixed s₀ toCompute (fixed ++ [l]) (r.fix l) where
  solver := congrArg (fun s : HillClimbingSolver => { s with
    clauses := (r.fix l).solver.clauses
    propagated := (r.fix l).solver.propagated
    metaVariables := (r.fix l).solver.metaVariables }) h.solver
  cache := by
    rw [List.map_append, ← h.cache]
    rfl
  nodup := by
    rw [List.map_append]
    apply h.nodup.append (List.nodup_singleton _)
    intro number hmem hsingle
    rw [List.mem_singleton.mp hsingle] at hmem
    exact hnew hmem
  propagated := h.propagated_fix hnew
  length_clauses := (length_clauses_fix r l).trans h.length_clauses
  clause := h.strip_fix hr hnew
  unit := h.unit_fix hr hi hunit hnew
  entailed α hα := h.entailed_fix hi hunit hα
  toDelete j number := h.exists_of_toDelete_fix hr
  noted := h.noted_fix hr
  length_metaVariables := by
    rw [← h.length_metaVariables]
    cases htable : r.solver.literalToMetaVariable l.number with
    | none => rw [Reduction.metaVariables_fix_of_none htable]
    | some k => rw [Reduction.metaVariables_fix_of_some htable, List.length_modify]
  narrowed k m m' hm hm' := h.narrowed_fix hm hm'

/-- What one clause of a round does: it fixes its literal or nothing. -/
theorem visit (h : Fixed s₀ toCompute fixed r) (hr : Reducible s₀ toCompute) {i : Nat}
    (hi : i < s₀.clauses.length) :
    ∃ fixed', Fixed s₀ toCompute fixed' (r.visit i) ∧
      (r.visit i = r ∨ fixed.length < fixed'.length) := by
  unfold Reduction.visit
  split
  · next l hunit =>
      split
      · exact ⟨fixed, h, Or.inl rfl⟩
      · next hnew =>
          rw [h.cache] at hnew
          exact ⟨fixed ++ [l], h.fix hr hi hunit hnew, Or.inr (by simp)⟩
  · exact ⟨fixed, h, Or.inl rfl⟩

theorem foldl_visit (hr : Reducible s₀ toCompute) {indices : List Nat} :
    ∀ {fixed r}, Fixed s₀ toCompute fixed r → (∀ i ∈ indices, i < s₀.clauses.length) →
      ∃ fixed', Fixed s₀ toCompute fixed' (indices.foldl Reduction.visit r) ∧
        (indices.foldl Reduction.visit r = r ∨ fixed.length < fixed'.length) := by
  induction indices with
  | nil => exact fun h _ => ⟨_, h, Or.inl rfl⟩
  | cons i indices ih =>
      intro fixed r h hindices
      obtain ⟨hi, hrest⟩ := List.forall_mem_cons.mp hindices
      obtain ⟨fixed₁, h₁, hvisit⟩ := h.visit hr hi
      obtain ⟨fixed₂, h₂, hfold⟩ := ih h₁ hrest
      apply Exists.intro fixed₂
      apply And.intro h₂
      -- the number of fixed literals can be read off the cache
      have hlength : fixed₁.length = (r.visit i).unitPropagationCache.length := by
        rw [h₁.cache, List.length_map]
      have hlength' : fixed.length = r.unitPropagationCache.length := by
        rw [h.cache, List.length_map]
      rcases hvisit with heq | hlt
      · rw [heq] at hlength
        rcases hfold with heq' | hlt'
        · exact Or.inl (heq'.trans heq)
        · exact Or.inr (by omega)
      · rcases hfold with heq' | hlt'
        · have hlast : fixed₂.length = fixed₁.length := by
            rw [hlength, ← heq']
            show fixed₂.length =
              (indices.foldl Reduction.visit (r.visit i)).unitPropagationCache.length
            rw [h₂.cache, List.length_map]
          exact Or.inr (by omega)
        · exact Or.inr (by omega)

/-- A round that changes a clause fixes a literal. -/
theorem pass (h : Fixed s₀ toCompute fixed r) (hr : Reducible s₀ toCompute) :
    ∃ fixed', Fixed s₀ toCompute fixed' r.pass ∧
      (r.pass.changed = true → fixed.length < fixed'.length) := by
  have hindices : ∀ i ∈ List.range r.solver.clauses.length, i < s₀.clauses.length := by
    intro i hi
    rw [← h.length_clauses]
    exact List.mem_range.mp hi
  obtain ⟨fixed', hfixed', hprogress⟩ := foldl_visit hr (h.setChanged false) hindices
  refine ⟨fixed', hfixed', fun hchanged => hprogress.resolve_left fun heq => ?_⟩
  have hfalse : r.pass.changed = false := congrArg Reduction.changed heq
  rw [hchanged] at hfalse
  cases hfalse

/-- Every fixed literal occurs in a clause. -/
theorem length_le (h : Fixed s₀ toCompute fixed r) :
    fixed.length ≤ (s₀.clauses.flatMap Clause.literals).length := by
  have hsub : fixed.map Literal.number ⊆
      (s₀.clauses.flatMap Clause.literals).map Literal.number := by
    intro number hnumber
    obtain ⟨l, hl, rfl⟩ := List.mem_map.mp hnumber
    obtain ⟨i, hi, hunit⟩ := h.unit l hl
    have hmem : l ∈ (s₀.clause i).literals := by
      apply h.mem_of_mem_clause
      rw [hunit]
      exact List.mem_singleton_self l
    have hclause : s₀.clause i ∈ s₀.clauses := by
      rw [HillClimbingSolver.clause, List.getD_eq_getElem _ _ hi]
      exact List.getElem_mem hi
    exact List.mem_map_of_mem (List.mem_flatMap.mpr ⟨_, hclause, hmem⟩)
  have hle := (h.nodup.subperm hsub).length_le
  rwa [List.length_map, List.length_map] at hle

end Fixed

/-- The outer loop ends. -/
theorem Fixed.exists_propagate (hr : Reducible s₀ toCompute) :
    ∀ (n : Nat) {fixed r}, Fixed s₀ toCompute fixed r →
      (s₀.clauses.flatMap Clause.literals).length < fixed.length + n →
      ∃ fixed' r', Fixed s₀ toCompute fixed' r' ∧
        ∀ fuel, n ≤ fuel → Reduction.propagate (fuel + 1) r = some r' := by
  intro n
  induction n with
  | zero =>
      intro fixed r h hn
      exact absurd h.length_le (by omega)
  | succ n ih =>
      intro fixed r h hn
      cases hchanged : r.changed with
      | false => exact ⟨fixed, r, h, fun fuel _ => by simp [Reduction.propagate, hchanged]⟩
      | true =>
          have hstep (fuel : Nat) : Reduction.propagate (fuel + 1) r =
              Reduction.propagate fuel r.pass := by
            simp [Reduction.propagate, hchanged]
          obtain ⟨fixed₁, h₁, hprogress⟩ := h.pass hr
          cases hagain : r.pass.changed with
          | false =>
              refine ⟨fixed₁, r.pass, h₁, fun fuel hfuel => ?_⟩
              obtain ⟨fuel, rfl⟩ : ∃ k, fuel = k + 1 := ⟨fuel - 1, by omega⟩
              rw [hstep, Reduction.propagate, hagain]
              rfl
          | true =>
              have hlt := hprogress hagain
              obtain ⟨fixed', r', h', hloop⟩ := ih h₁ (by omega)
              refine ⟨fixed', r', h', fun fuel hfuel => ?_⟩
              obtain ⟨fuel, rfl⟩ : ∃ k, fuel = k + 1 := ⟨fuel - 1, by omega⟩
              rw [hstep]
              exact hloop fuel (by omega)

end LatinSquares.LocalSearch
