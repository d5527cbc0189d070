/-
# The books of a new solver

`reduce` empties the lists of the variables it fixes and leaves exact lists for all others. The
cells and the net then give every variable a value, and the last loop of the constructor counts. So
a search starts with exact books, and `literal_to_meta_variable` leads to its cells.
-/

import LatinSquares.Generator.Tautologies
import LatinSquares.LocalSearch.Certificate
import LatinSquares.LocalSearch.Session

namespace LatinSquares.LocalSearch

open LatinSquares.Math
open LatinSquares.Generator (LatinSquareEncoder)

/-- Unknown or one of the two values. -/
def Ternary (value : UInt8) : Prop := value = 2 ∨ ∃ b : Bool, value = b.toUInt8

theorem ternary_toUInt8 (b : Bool) : Ternary b.toUInt8 := Or.inr ⟨b, rfl⟩

section Values

variable {units : Units} {v : Nat}

theorem ternary_setLiterals (literals : List Literal) (h : Ternary (units v)) :
    Ternary (setLiterals units literals v) := by
  induction literals generalizing units with
  | nil => exact h
  | cons l literals ih =>
      show Ternary (setLiterals (Function.update units l.number l.value.toUInt8) literals v)
      apply ih
      rw [Function.update_apply]
      split
      · exact ternary_toUInt8 l.value
      · exact h

/-- The variables of the net are known once it has been evaluated. -/
theorem Net.known_evaluate (net : Net) (h : Ternary (units v))
    (hnode : ∃ node ∈ net.finalized, node.var = v) :
    ∃ b : Bool, net.evaluate units v = b.toUInt8 := by
  obtain ⟨nodes, table⟩ := net
  induction nodes generalizing units with
  | nil =>
      obtain ⟨node, hnode, -⟩ := hnode
      exact absurd hnode List.not_mem_nil
  | cons node nodes ih =>
      let next := if units node.var == 2 then
        Function.update units node.var (node.propagate units []).toUInt8 else units
      show ∃ b : Bool, (Net.mk nodes table).evaluate next v = b.toUInt8
      by_cases hvar : node.var = v
      · obtain ⟨b, hb⟩ : ∃ b : Bool, next v = b.toUInt8 := by
          subst hvar
          dsimp only [next]
          split
          · exact ⟨_, Function.update_self ..⟩
          · next hknown => exact h.resolve_left fun htwo => hknown (beq_iff_eq.mpr htwo)
        have hne : next v ≠ 2 := by
          rw [hb]
          cases b <;> decide
        exact ⟨b, (Net.evaluate_of_known _ hne).trans hb⟩
      · have hsame : next v = units v := by
          dsimp only [next]
          split
          · exact Function.update_of_ne (Ne.symm hvar) _ _
          · rfl
        apply ih (hsame ▸ h)
        obtain ⟨node', hnode', heq⟩ := hnode
        rcases List.mem_cons.mp hnode' with rfl | htail
        · exact absurd heq hvar
        · exact ⟨node', htail, heq⟩

theorem Clause.propagate_congr {units' : Units} (clause : Clause)
    (h : ∀ l ∈ clause.literals, units l.number = units' l.number) :
    clause.propagate units = clause.propagate units' := by
  apply List.countP_congr
  intro l hl
  rw [h l hl]

end Values

section Tables

variable {s₀ s : HillClimbingSolver} {toCompute : List Nat} {fixed : List Literal}
variable {r r' : Reduction} {fuel : Nat}

theorem Fixed.of_propagate (hr : Reducible s₀ toCompute) (h : Fixed s₀ toCompute fixed r)
    (hloop : Reduction.propagate fuel r = some r') : ∃ fixed', Fixed s₀ toCompute fixed' r' := by
  induction fuel generalizing fixed r with
  | zero => cases hloop
  | succ fuel ih =>
      rw [Reduction.propagate] at hloop
      split at hloop
      · obtain ⟨fixed', h', -⟩ := h.pass hr
        exact ih h' hloop
      · cases hloop
        exact ⟨fixed, h⟩

namespace HillClimbingSolver

/-- What `reduce` leaves of the clauses and their lists. -/
structure Tabulated (s₀ : HillClimbingSolver) (toCompute : List Nat) (s : HillClimbingSolver) :
    Prop where
  same : s = { s₀ with
    clauses := s.clauses
    propagated := s.propagated
    metaVariables := s.metaVariables
    metaValues := s.metaValues
    literalToClauseWithPositiveValue := s.literalToClauseWithPositiveValue
    literalToClauseWithNegativeValue := s.literalToClauseWithNegativeValue }
  length_clauses : s.clauses.length = s₀.clauses.length
  sublist : ∀ i, (s.clause i).literals.Sublist (s₀.clause i).literals
  ternary : ∀ v, Ternary (s.propagated v)
  count : ∀ l, s.propagated l.number = 2 → ∀ i, (s.clausesWith l).count i =
    if i ∈ toCompute then (s.clause i).literals.count l else 0
  cleared : ∀ l, s.propagated l.number ≠ 2 → s.clausesWith l = []

theorem tabulated_reduce (hr : Reducible s₀ toCompute) (h : s₀.reduce fuel = some s) :
    Tabulated s₀ toCompute s := by
  obtain ⟨r, hloop, hrest⟩ := Option.bind_eq_some_iff.mp h
  obtain ⟨shrunk, hshrink, hclear⟩ := Option.bind_eq_some_iff.mp hrest
  cases hclear
  obtain ⟨fixed, hfixed⟩ := (fixed_nil hr true).of_propagate hr hloop
  obtain ⟨shrunk', hshrink', hs⟩ := (hfixed.shrinkable hr).exists_shrinkAll
  obtain rfl := Option.some.inj (hshrink'.symm.trans hshrink)
  obtain ⟨hcleared, hclauses, htables⟩ := foldl_clearLists r.unitPropagationCache shrunk'
  have hpropagated : (r.unitPropagationCache.foldl clearLists shrunk').propagated =
      r.solver.propagated := by
    rw [hcleared, hs.same]
  have hsame := hs.same
  have hsolver := hfixed.solver
  generalize r.unitPropagationCache.foldl clearLists shrunk' = s at *
  have hclause (i : Nat) : s.clause i = shrunk'.clause i := by rw [clause, hclauses, clause]
  constructor
  · rw [hcleared, hsame, hsolver]
  · rw [hclauses, hs.length_clauses, hfixed.length_clauses]
  · intro i
    rw [hclause]
    exact hfixed.sublist_shrunk hs i
  · intro v
    rw [hpropagated, hfixed.propagated]
    split
    · exact ternary_toUInt8 true
    · split
      · exact ternary_toUInt8 false
      · exact Or.inl rfl
  · intro l hl i
    rw [hpropagated, hfixed.propagated_eq_two_iff] at hl
    rw [htables, if_neg (by rwa [hfixed.cache]), hclause]
    exact hfixed.count_shrunk hr hs hl i
  · intro l hl
    rw [hpropagated, Ne, hfixed.propagated_eq_two_iff, not_not] at hl
    rw [htables, if_pos (by rwa [hfixed.cache])]

end HillClimbingSolver

end Tables

namespace HillClimbingSolver

section Counting

variable {u : HillClimbingSolver} {α : Nat → Bool} {toCompute : List Nat} {fixed : Set Nat}

/-- Nothing has been counted yet. -/
structure Uncounted (u : HillClimbingSolver) : Prop where
  satisfied : ∀ i, u.satisfied i = false
  satisfiedSum : u.satisfiedSum = 0
  satisfiedCount : u.satisfiedCount = 0
  literalToUnsat : ∀ v, u.literalToUnsat v = 0

/-- The last loop of the constructor leaves exact books, for every assignment that has the values
of the variables in clauses. -/
theorem Uncounted.ledger (hu : Uncounted u)
    (hvalues : ∀ i ∈ toCompute, ∀ l ∈ (u.clause i).literals,
      u.propagated l.number = unitsOf α l.number)
    (hindices : ∀ i ∈ toCompute, i < u.clauses.length)
    (hfits : ∀ i ∈ toCompute, (u.clause i).literals.length < 2 ^ 32)
    (hcount : ∀ l, l.number ∉ fixed → ∀ i, (u.clausesWith l).count i =
      if i ∈ toCompute then (u.clause i).literals.count l else 0) :
    Ledger { countClauses toCompute u with propagated := unitsOf α } α toCompute.toFinset
      fixed := by
  have hcounted := counted_countClauses toCompute hu.satisfied
  generalize countClauses toCompute u = s at hcounted
  have hlength : s.clauses.length = u.clauses.length := by rw [hcounted.clauses]
  have hclause (i : Nat) : s.clause i = u.clause i := by rw [clause, hcounted.clauses, clause]
  have hpropagate (i : Nat) (hi : i ∈ toCompute) :
      (u.clause i).propagate u.propagated = (u.clause i).propagate (unitsOf α) :=
    Clause.propagate_congr _ (hvalues i hi)
  have hsubset : toCompute.toFinset ⊆ Finset.range u.clauses.length := fun i hi =>
    Finset.mem_range.mpr (hindices i (List.mem_toFinset.mp hi))
  constructor
  · rfl
  · intro i hi
    show i < s.clauses.length
    rw [hlength]
    exact hindices i (List.mem_toFinset.mp hi)
  · intro i hi
    show (s.clause i).literals.length < _
    rw [hclause]
    exact hfits i (List.mem_toFinset.mp hi)
  · intro v hv i
    show (s.literalToClauseWithPositiveValue v).count i =
      if i ∈ toCompute.toFinset then (s.clause i).literals.count _ else 0
    rw [hcounted.positive, hclause]
    simp only [List.mem_toFinset]
    exact hcount ⟨v, true⟩ hv i
  · intro v hv i
    show (s.literalToClauseWithNegativeValue v).count i =
      if i ∈ toCompute.toFinset then (s.clause i).literals.count _ else 0
    rw [hcounted.negative, hclause]
    simp only [List.mem_toFinset]
    exact hcount ⟨v, false⟩ hv i
  · intro i hi
    have hi := List.mem_toFinset.mp hi
    show s.clausesCountSatisfied i = UInt32.ofNat ((s.clause i).propagate (unitsOf α))
    rw [hcounted.count i (hindices i hi), hpropagate i hi, hclause]
  · intro i hi
    show s.satisfied i = true ↔ (i ∈ toCompute.toFinset → (s.clause i).eval α = true)
    rw [hcounted.satisfied i (hlength ▸ hi), decide_eq_true_iff, List.mem_toFinset, hclause]
    by_cases hmem : i ∈ toCompute
    · simp [hmem, hpropagate i hmem, propagate_pos_iff]
    · simp [hmem]
  · show s.satisfiedSum = UInt32.ofNat
      (∑ i ∈ Finset.range s.clauses.length, if s.satisfied i then (s.weights i).toNat else 0)
    rw [hcounted.satisfiedSum, hu.satisfiedSum, zero_add, ofNat_sum_marks, hlength,
      hcounted.weights]
    simp
  · show s.satisfiedCount = UInt32.ofNat
      (∑ i ∈ Finset.range s.clauses.length, if s.satisfied i then 1 else 0)
    rw [hcounted.satisfiedCount, hu.satisfiedCount, zero_add, ofNat_sum_marks, hlength]
    rfl
  · intro v
    show s.literalToUnsat v = UInt32.ofNat
      (∑ i ∈ toCompute.toFinset, if s.satisfied i then 0 else (s.clause i).mentions v)
    rw [hcounted.literalToUnsat, hu.literalToUnsat, zero_add, ofNat_sum_marks]
    simp only [hclause]
    refine (Finset.sum_subset hsubset fun i hi hnot => if_pos ?_).symm
    rw [hcounted.satisfied i (Finset.mem_range.mp hi), decide_eq_true_iff]
    exact Or.inr fun hmem => hnot (List.mem_toFinset.mpr hmem)

end Counting

section Drawing

variable {s s' s'' : HillClimbingSolver} {coreSize : Nat} {first : List UInt8} {rand : Nat → Nat}

/-- The loops after `reduce` change values only, and no variable past `coreSize` gets a value other
than `0`, `1` and `2`. -/
structure Drawn (coreSize : Nat) (s s' : HillClimbingSolver) : Prop where
  same : s' = { s with propagated := s'.propagated, metaValues := s'.metaValues }
  ternary : ∀ v, coreSize < v → Ternary (s.propagated v) → Ternary (s'.propagated v)

theorem Drawn.refl (s : HillClimbingSolver) : Drawn coreSize s s := ⟨rfl, fun _ _ h => h⟩

theorem Drawn.trans (h : Drawn coreSize s s') (h' : Drawn coreSize s' s'') :
    Drawn coreSize s s'' where
  same := by
    rw [h'.same, h.same]
  ternary v hv hs := h'.ternary v hv (h.ternary v hv hs)

theorem drawn_chooseValues (h : s.chooseValues rand = some s') : Drawn coreSize s s' := by
  refine foldlM_rel Drawn.refl Drawn.trans (fun p _ s s' hstep => ?_) h
  obtain ⟨value, -, hrest⟩ := Option.bind_eq_some_iff.mp hstep
  obtain ⟨metaValues, -, hrest⟩ := Option.bind_eq_some_iff.mp hrest
  obtain ⟨literals, -, hchosen⟩ := Option.bind_eq_some_iff.mp hrest
  cases hchosen
  exact ⟨rfl, fun v _ => ternary_setLiterals literals⟩

theorem drawn_takeAll (h : s.takeAll coreSize first = some s') : Drawn coreSize s s' := by
  unfold takeAll at h
  split at h
  · cases h
    exact Drawn.refl s
  · refine foldlM_rel Drawn.refl Drawn.trans (fun i hi s s' hstep => ?_) h
    have hle : i ≤ coreSize := by
      have := List.mem_range'_1.mp hi
      omega
    have hother (value : UInt8) : ∀ v, coreSize < v → Ternary (s.propagated v) →
        Ternary (Function.update s.propagated i value v) := by
      intro v hv hs
      rwa [Function.update_of_ne (by omega)]
    obtain ⟨value, -, hrest⟩ := Option.bind_eq_some_iff.mp hstep
    dsimp only at hrest
    split at hrest
    · cases hrest
      exact ⟨rfl, hother value⟩
    · split at hrest
      · cases hrest
        exact ⟨rfl, hother value⟩
      · obtain ⟨m, -, hrest⟩ := Option.bind_eq_some_iff.mp hrest
        split at hrest
        · cases hrest
          exact ⟨rfl, hother value⟩
        · obtain ⟨symbol, -, hrest⟩ := Option.bind_eq_some_iff.mp hrest
          obtain ⟨metaValues, -, hset⟩ := Option.bind_eq_some_iff.mp hrest
          cases hset
          exact ⟨rfl, hother value⟩

end Drawing

section Constructed

variable {fuel coreSize literalCount : Nat} {clauses : List Clause} {toCompute : List Nat}
variable {weights : Nat → UInt32} {net : Net} {metaVariables : List MetaVariable}
variable {first : List UInt8} {rand : Nat → Nat} {s₀ p s : HillClimbingSolver}

theorem uncounted_unreduced (h : unreduced clauses toCompute weights net metaVariables = some s₀) :
    Uncounted s₀ ∧ s₀.clauses = clauses ∧ s₀.weights = weights := by
  obtain ⟨table, -, hs⟩ := Option.bind_eq_some_iff.mp h
  cases hs
  exact ⟨⟨fun _ => rfl, rfl, rfl, fun _ => rfl⟩, rfl, rfl⟩

theorem tabulated_prepare (htautology : ∀ c ∈ clauses, c.TautologyFree)
    (h : prepare fuel clauses toCompute weights net metaVariables = some p) :
    ∃ s₀, unreduced clauses toCompute weights net metaVariables = some s₀ ∧
      Tabulated s₀ toCompute p := by
  obtain ⟨s₀, hs₀, hrest⟩ := Option.bind_eq_some_iff.mp h
  obtain ⟨s₁, hreduce, hrest⟩ := Option.bind_eq_some_iff.mp hrest
  obtain ⟨metaValues, -, hprepared⟩ := Option.bind_eq_some_iff.mp hrest
  cases hprepared
  have htabulated := tabulated_reduce (reducible_unreduced htautology hs₀).1 hreduce
  refine ⟨s₀, hs₀, ?_, htabulated.length_clauses, htabulated.sublist, htabulated.ternary,
    htabulated.count, htabulated.cleared⟩
  conv_lhs => rw [htabulated.same]

theorem exists_drawn
    (hprepare : prepare fuel clauses toCompute weights net metaVariables = some p)
    (h : construct fuel clauses toCompute weights net metaVariables coreSize first rand = some s) :
    ∃ r, Drawn coreSize p r ∧
      s = countClauses toCompute { r with propagated := p.net.evaluate r.propagated } := by
  rw [construct_eq, hprepare, Option.bind_eq_bind, Option.bind_some] at h
  obtain ⟨u, hu, hrest⟩ := Option.bind_eq_some_iff.mp h
  obtain ⟨r, hr, hdone⟩ := Option.bind_eq_some_iff.mp hrest
  cases hdone
  have hdrawn := (drawn_chooseValues hu).trans (drawn_takeAll hr)
  refine ⟨r, hdrawn, ?_⟩
  rw [hdrawn.same]

/-- What the last loop of the constructor starts from. The lists of `fixed` variables are empty. -/
structure Countable (clauses : List Clause) (toCompute : List Nat) (weights : Nat → UInt32)
    (fixed : Set Nat) (u : HillClimbingSolver) : Prop where
  uncounted : Uncounted u
  length_clauses : u.clauses.length = clauses.length
  weights : u.weights = weights
  sublist : ∀ i, (u.clause i).literals.Sublist (clauses.getD i ⟨[]⟩).literals
  count : ∀ l, l.number ∉ fixed → ∀ i, (u.clausesWith l).count i =
    if i ∈ toCompute then (u.clause i).literals.count l else 0
  cleared : ∀ l, l.number ∈ fixed → u.clausesWith l = []

theorem exists_countable (htautology : ∀ c ∈ clauses, c.TautologyFree)
    (hprepare : prepare fuel clauses toCompute weights net metaVariables = some p)
    (h : construct fuel clauses toCompute weights net metaVariables coreSize first rand = some s) :
    ∃ u, s = countClauses toCompute u ∧
      Countable clauses toCompute weights {v | p.propagated v ≠ 2} u ∧
      ∀ v, coreSize < v → (∃ node ∈ p.net.finalized, node.var = v) →
        ∃ b : Bool, u.propagated v = b.toUInt8 := by
  obtain ⟨s₀, hs₀, htabulated⟩ := tabulated_prepare htautology hprepare
  obtain ⟨hzero, hclauses, hweights⟩ := uncounted_unreduced hs₀
  obtain ⟨r, hdrawn, hcount⟩ := exists_drawn hprepare h
  let u : HillClimbingSolver := { r with propagated := p.net.evaluate r.propagated }
  have hu : u = { p with propagated := u.propagated, metaValues := r.metaValues } := by
    dsimp only [u]
    rw [hdrawn.same]
  refine ⟨u, hcount, ?_, fun v hv hnode =>
    p.net.known_evaluate (hdrawn.ternary v hv (htabulated.ternary v)) hnode⟩
  rw [hu]
  constructor
  · rw [htabulated.same]
    exact ⟨hzero.satisfied, hzero.satisfiedSum, hzero.satisfiedCount, hzero.literalToUnsat⟩
  · rw [← hclauses]
    exact htabulated.length_clauses
  · rw [htabulated.same, ← hweights]
  · rw [← hclauses]
    exact htabulated.sublist
  · exact fun l hl => htabulated.count l (not_not.mp hl)
  · exact htabulated.cleared

section Counters

variable {α : Nat → Bool} {fixed : Set Nat} {u : HillClimbingSolver} {i v : Nat} {l : Literal}

theorem Countable.number_le (hu : Countable clauses toCompute weights fixed u)
    (hnumbers : ∀ c ∈ clauses, ∀ l ∈ c.literals, 1 ≤ l.number ∧ l.number ≤ literalCount)
    (hi : i < clauses.length) (hl : l ∈ (u.clause i).literals) :
    1 ≤ l.number ∧ l.number ≤ literalCount := by
  have hmem := (hu.sublist i).mem hl
  rw [List.getD_eq_getElem _ _ hi] at hmem
  exact hnumbers _ (List.getElem_mem _) l hmem

/-- The clauses mention a variable no more often than the file has literals. -/
theorem Countable.sum_mentions_le (hu : Countable clauses toCompute weights fixed u)
    (hindices : ∀ i ∈ toCompute, i < clauses.length) (v : Nat) :
    ∑ i ∈ toCompute.toFinset, (u.clause i).mentions v ≤
      ∑ i ∈ Finset.range clauses.length, (clauses.getD i ⟨[]⟩).literals.length := by
  have hsubset : toCompute.toFinset ⊆ Finset.range clauses.length := fun i hi =>
    Finset.mem_range.mpr (hindices i (List.mem_toFinset.mp hi))
  calc ∑ i ∈ toCompute.toFinset, (u.clause i).mentions v
      ≤ ∑ i ∈ toCompute.toFinset, (clauses.getD i ⟨[]⟩).literals.length :=
        Finset.sum_le_sum fun i _ => List.countP_le_length.trans (hu.sublist i).length_le
    _ ≤ ∑ i ∈ Finset.range clauses.length, (clauses.getD i ⟨[]⟩).literals.length :=
        Finset.sum_le_sum_of_subset hsubset

theorem Countable.exact (hu : Countable clauses toCompute weights fixed u)
    (hvalues : ∀ v, 1 ≤ v → v ≤ literalCount → u.propagated v = unitsOf α v)
    (hnumbers : ∀ c ∈ clauses, ∀ l ∈ c.literals, 1 ≤ l.number ∧ l.number ≤ literalCount)
    (hindices : ∀ i ∈ toCompute, i < clauses.length)
    (hweights : (∑ i ∈ Finset.range clauses.length, (weights i).toNat) < 2 ^ 32)
    (hliterals : (∑ i ∈ Finset.range clauses.length, (clauses.getD i ⟨[]⟩).literals.length) <
      2 ^ 32) :
    Exact (countClauses toCompute u) α toCompute.toFinset fixed literalCount := by
  have hcounted := counted_countClauses toCompute hu.uncounted.satisfied
  have hclause (i : Nat) : (countClauses toCompute u).clause i = u.clause i := by
    rw [clause, hcounted.clauses, clause]
  constructor
  · rw [hcounted.propagated]
    exact hvalues
  · refine hu.uncounted.ledger (fun i hi l hl => ?_)
      (fun i hi => hu.length_clauses ▸ hindices i hi) (fun i hi => ?_) hu.count
    · obtain ⟨hpos, hle⟩ := hu.number_le hnumbers (hindices i hi) hl
      exact hvalues l.number hpos hle
    · have hle := Finset.single_le_sum (f := fun i => (clauses.getD i ⟨[]⟩).literals.length)
        (fun _ _ => Nat.zero_le _) (Finset.mem_range.mpr (hindices i hi))
      exact ((hu.sublist i).length_le.trans hle).trans_lt hliterals
  · intro v hv
    rw [occurrences, hcounted.positive, hcounted.negative]
    exact List.append_eq_nil_iff.mpr ⟨hu.cleared ⟨v, true⟩ hv, hu.cleared ⟨v, false⟩ hv⟩
  · rw [hcounted.clauses, hcounted.weights, hu.length_clauses, hu.weights]
    exact hweights
  · intro v
    simp only [hclause]
    exact (hu.sum_mentions_le hindices v).trans_lt hliterals
  · intro i hi l hl
    rw [hclause] at hl
    exact (hu.number_le hnumbers (hindices i (List.mem_toFinset.mp hi)) hl).2

end Counters

/-- A search starts with exact books if no clause has a literal and its negation, the cells and the
net have all variables, and the numbers fit into the counters. -/
theorem exact_construct (hgrid : Grid metaVariables) (hcells : OneHotCells metaVariables coreSize)
    (hprepare : prepare fuel clauses toCompute weights net metaVariables = some p)
    (h : construct fuel clauses toCompute weights net metaVariables coreSize first rand = some s)
    (hs : Settled p s)
    (hnet : ∀ v, coreSize < v → v ≤ literalCount → ∃ node ∈ net.finalized, node.var = v)
    (htautology : ∀ c ∈ clauses, c.TautologyFree)
    (hnumbers : ∀ c ∈ clauses, ∀ l ∈ c.literals, 1 ≤ l.number ∧ l.number ≤ literalCount)
    (hindices : ∀ i ∈ toCompute, i < clauses.length)
    (hweights : (∑ i ∈ Finset.range clauses.length, (weights i).toNat) < 2 ^ 32)
    (hliterals : (∑ i ∈ Finset.range clauses.length, (clauses.getD i ⟨[]⟩).literals.length) <
      2 ^ 32) :
    Exact s (fun v => decide (s.propagated v = 1)) toCompute.toFinset {v | p.propagated v ≠ 2}
      literalCount := by
  have hp := prepared_of_eq_some hcells hprepare
  obtain ⟨u, rfl, hu, hnodes⟩ := exists_countable htautology hprepare h
  have hpropagated : (countClauses toCompute u).propagated = u.propagated :=
    (counted_countClauses toCompute hu.uncounted.satisfied).propagated
  refine hu.exact (fun v hpos hv => ?_) hnumbers hindices hweights hliterals
  by_cases hcore : v ≤ coreSize
  · rw [← hpropagated]
    exact hs.known hp hgrid hcells hpos hcore
  · obtain ⟨b, hb⟩ := hnodes v (by omega) (hp.net ▸ hnet v (by omega) hv)
    rw [unitsOf, hpropagated, hb]
    cases b <;> decide

/-- The table leads from the variables of a cell to the cell, and from no other variable to one. -/
theorem indexesCells_prepared (hgrid : Grid metaVariables) (hp : Prepared metaVariables net p)
    (hauxiliary : Auxiliary net metaVariables) : IndexesCells p where
  own _ _ hm _ hliterals _ hl := hp.table_eq hgrid hm hliterals (List.mem_map_of_mem hl)
  nodes node hnode := by
    rw [hp.net] at hnode
    by_contra hsome
    obtain ⟨k, hk⟩ := Option.ne_none_iff_exists'.mp hsome
    obtain ⟨m, hm, hcell⟩ := hp.indexed.sound _ _ hk
    have hne : m.variables_ ≠ [] := by
      intro hnil
      rw [MetaVariable.cell, hnil] at hcell
      exact absurd hcell List.not_mem_nil
    obtain ⟨first, rest, hfirst⟩ := List.exists_cons_of_ne_nil hne
    have hmem := List.mem_of_getElem? hm
    have hliterals : first ∈ m.variables_ := hfirst ▸ List.mem_cons_self
    exact hauxiliary node hnode m hmem first hliterals ((hgrid.mem_cell hmem hliterals).mpr hcell)
  lt v k hk := by
    obtain ⟨m, hm, -⟩ := hp.indexed.sound v k hk
    rw [← hp.thins.length_eq]
    exact (List.getElem?_eq_some_iff.mp hm).1

theorem indexesCells_construct (hgrid : Grid metaVariables)
    (hcells : OneHotCells metaVariables coreSize)
    (hprepare : prepare fuel clauses toCompute weights net metaVariables = some p)
    (h : construct fuel clauses toCompute weights net metaVariables coreSize first rand = some s)
    (hauxiliary : Auxiliary net metaVariables) : IndexesCells s := by
  have hindexes := indexesCells_prepared hgrid (prepared_of_eq_some hcells hprepare) hauxiliary
  obtain ⟨r, hdrawn, rfl⟩ := exists_drawn hprepare h
  obtain ⟨hmeta, -, -, hnet, htable⟩ := countClauses_keeps toCompute
    { r with propagated := p.net.evaluate r.propagated }
  rw [hdrawn.same] at hmeta hnet htable ⊢
  constructor
  · rw [hmeta, htable]
    exact hindexes.own
  · rw [hnet, htable]
    exact hindexes.nodes
  · rw [hmeta, htable]
    exact hindexes.lt

end Constructed

end HillClimbingSolver

theorem readLiteral_eq_some_iff {a : Generator.Literal} {v : Nat} {value : Bool} :
    readLiteral a = some ⟨v, value⟩ ↔ a = if value then .var v else .notVar v := by
  cases value <;> cases a <;> simp [readLiteral]

theorem tautologyFree_readClause {clause : Generator.Clause}
    (h : Generator.Consistent clause.args) : (readClause clause).TautologyFree := by
  rintro ⟨v, value⟩ hl hnegate
  obtain ⟨a, ha, hal⟩ := List.mem_filterMap.mp hl
  obtain ⟨b, hb, hbl⟩ := List.mem_filterMap.mp hnegate
  rw [readLiteral_eq_some_iff] at hal
  rw [Literal.negate, readLiteral_eq_some_iff] at hbl
  subst hal hbl
  cases value
  · exact h v hb ha
  · exact h v ha hb

open HillClimbingSolver in
/-- Every search on a file of the encoder starts with exact books and with a table that leads to its
cells, if the sums of its weights and of its literals fit into 32 bits. -/
theorem exact_of_cnf {e : LatinSquareEncoder} (shuffle : Generator.Order) (hn : 3 ≤ e.n)
    (hn' : e.n < 256) (hk : 2 ≤ e.k) (hk' : e.k ≤ 256) {f : Generator.CNF}
    (hf : e.cnf shuffle = some f) {net : Net} (hnet : Net.Finalizes (f.net.map readNode) net)
    {weights : Nat → UInt32}
    (hweights : (∑ i ∈ Finset.range f.clauses.length, (weights i).toNat) < 2 ^ 32)
    (hliterals : (∑ i ∈ Finset.range f.clauses.length,
      ((f.clauses.map fun c => readClause c.clause).getD i ⟨[]⟩).literals.length) < 2 ^ 32)
    {fuel : Nat} {rand : Nat → Nat} {s : HillClimbingSolver}
    (h : construct fuel (f.clauses.map fun c => readClause c.clause) f.toCompute weights net
      (f.metaVariables.map readMetaVariable) e.coreSize [] rand = some s) :
    (∃ fixed, Exact s (fun v => decide (s.propagated v = 1)) f.toCompute.toFinset fixed
      f.variables_.length) ∧ IndexesCells s := by
  obtain ⟨hread, hauxiliary, -⟩ := cells_of_cnf shuffle hn hn' hk hk' hf hnet
  obtain ⟨_, state, _, _, _, hreturned, -⟩ :=
    LatinSquareEncoder.exists_returned_netEnds shuffle hn hk hf
  have hlength := hreturned.length_variables (show 0 < e.n by omega)
  have hgrid := grid_of_readFrom hread
  have hcells := oneHotCells_of_readFrom hn hread
  obtain ⟨p, hprepare, hs⟩ := settled_construct hgrid hcells h
  refine ⟨⟨_, exact_construct hgrid hcells hprepare h hs (fun v hv hle => ?_) ?_ ?_ ?_ ?_ ?_⟩,
    indexesCells_construct hgrid hcells hprepare h hauxiliary⟩
  · have hmem := (mem_vars_iff hreturned).mpr ⟨hv, hlength ▸ hle⟩
    rw [← (hnet.perm.map Node.var).mem_iff] at hmem
    exact List.mem_map.mp hmem
  · intro c hc
    obtain ⟨c, hmem, rfl⟩ := List.mem_map.mp hc
    exact tautologyFree_readClause (Generator.LatinSquareEncoder.consistent_of_cnf shuffle hn hk hf
      c hmem)
  · intro c hc
    obtain ⟨c, hmem, rfl⟩ := List.mem_map.mp hc
    rw [hlength]
    exact (filterMap_readLiteral
      (hreturned.clauses_proper (show 0 < e.n by omega) c hmem).literals).1
  · intro i hi
    rw [List.length_map]
    exact List.mem_range.mp (List.mem_filter.mp hi).1
  · rw [List.length_map]
    exact hweights
  · rw [List.length_map]
    exact hliterals

end LatinSquares.LocalSearch
