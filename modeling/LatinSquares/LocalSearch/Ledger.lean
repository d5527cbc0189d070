/-
# Committing a list of flips

`apply_flipped` inverts the assignment first and replays the flips one variable at a time
through the differences of the counts of true literals. It marks a clause whenever its
running count reaches `0` from above or leaves it, so a clause may be marked several times.
The running counts are those of the assignments between the old and the new one, and every
mark, sum and counter follows them.
-/

import LatinSquares.LocalSearch.Construct

namespace LatinSquares.LocalSearch

open LatinSquares.Math

namespace HillClimbingSolver

/-- The tables lead to every occurrence in the clauses of `toCompute`, except for the
variables `fixed` by unit clauses, and all counts, marks and sums are exact for `α`. The
counters have 32 bits. -/
structure Ledger (s : HillClimbingSolver) (α : Nat → Bool) (toCompute : Finset Nat)
    (fixed : Set Nat) : Prop where
  propagated : s.propagated = unitsOf α
  toCompute_lt : ∀ i ∈ toCompute, i < s.clauses.length
  fits : ∀ i ∈ toCompute, (s.clause i).literals.length < 2 ^ 32
  positive : ∀ v ∉ fixed, ∀ i, (s.literalToClauseWithPositiveValue v).count i =
    if i ∈ toCompute then (s.clause i).literals.count ⟨v, true⟩ else 0
  negative : ∀ v ∉ fixed, ∀ i, (s.literalToClauseWithNegativeValue v).count i =
    if i ∈ toCompute then (s.clause i).literals.count ⟨v, false⟩ else 0
  count : ∀ i ∈ toCompute,
    s.clausesCountSatisfied i = UInt32.ofNat ((s.clause i).propagate (unitsOf α))
  satisfied : ∀ i < s.clauses.length,
    (s.satisfied i = true ↔ (i ∈ toCompute → (s.clause i).eval α = true))
  satisfiedSum : s.satisfiedSum = UInt32.ofNat
    (∑ i ∈ Finset.range s.clauses.length, if s.satisfied i then (s.weights i).toNat else 0)
  satisfiedCount : s.satisfiedCount = UInt32.ofNat
    (∑ i ∈ Finset.range s.clauses.length, if s.satisfied i then 1 else 0)
  literalToUnsat : ∀ v, s.literalToUnsat v = UInt32.ofNat
    (∑ i ∈ toCompute, if s.satisfied i then 0 else (s.clause i).mentions v)

/-- The marks that the toggles collected so far lead to. -/
def Update.marks (s : HillClimbingSolver) (u : Update) : Nat → Bool :=
  u.newSatisfied.foldl (fun satisfied index =>
    Function.update satisfied index (!satisfied index)) s.satisfied

/-- The variables of the loop follow the numbers `c` of true literals. -/
structure Running (s : HillClimbingSolver) (toCompute : Finset Nat) (c : Nat → Nat)
    (u : Update) : Prop where
  counts : ∀ i ∈ toCompute,
    s.clausesCountSatisfied i + u.newSatisfiedCountClauses i = UInt32.ofNat (c i)
  otherCounts : ∀ i ∉ toCompute, u.newSatisfiedCountClauses i = 0
  marks : ∀ i ∈ toCompute, u.marks s i = decide (0 < c i)
  otherMarks : ∀ i ∉ toCompute, u.marks s i = s.satisfied i
  sum : u.newSatisfiedSum =
    ∑ i ∈ Finset.range s.clauses.length, if u.marks s i then s.weights i else 0
  count : u.newSatisfiedCount =
    ∑ i ∈ Finset.range s.clauses.length, if u.marks s i then 1 else 0
  unsat : ∀ v, u.literalToUnsat v =
    ∑ i ∈ toCompute, if u.marks s i then 0 else UInt32.ofNat ((s.clause i).mentions v)

variable {s : HillClimbingSolver} {toCompute : Finset Nat} {c : Nat → Nat} {u : Update}
variable {i v : Nat}

/-- A sum over marks when one mark is set. -/
theorem sum_update_mark {G : Type} [AddCommGroup G] {indices : Finset Nat} (hi : i ∈ indices)
    (marks : Nat → Bool) (b : Bool) (f g : Nat → G) :
    (∑ j ∈ indices, if Function.update marks i b j then f j else g j) =
      (∑ j ∈ indices, if marks j then f j else g j) +
        ((if b then f i else g i) - if marks i then f i else g i) := by
  have hrest : ∀ j ∈ indices.erase i, (if Function.update marks i b j then f j else g j) =
      if marks j then f j else g j := by
    intro j hj
    rw [Function.update_of_ne (Finset.ne_of_mem_erase hj)]
  rw [← Finset.add_sum_erase _ _ hi, ← Finset.add_sum_erase _ _ hi, Finset.sum_congr rfl hrest,
    Function.update_self]
  abel

theorem ofNat_sum_marks (indices : Finset Nat) (marks : Nat → Bool) (f g : Nat → Nat) :
    UInt32.ofNat (∑ i ∈ indices, if marks i then f i else g i) =
      ∑ i ∈ indices, if marks i then UInt32.ofNat (f i) else UInt32.ofNat (g i) := by
  rw [ofNat_sum]
  exact Finset.sum_congr rfl fun i _ => apply_ite UInt32.ofNat (marks i = true) (f i) (g i)

theorem marks_append (s : HillClimbingSolver) (u : Update) (newSatisfied : List Nat) (i : Nat)
    (h : newSatisfied = u.newSatisfied ++ [i]) :
    newSatisfied.foldl (fun satisfied index =>
      Function.update satisfied index (!satisfied index)) s.satisfied =
      Function.update (u.marks s) i (!u.marks s i) := by
  rw [h, List.foldl_append]
  rfl

theorem ofNat_eq_zero_iff {n : Nat} (hn : n < 2 ^ 32) : UInt32.ofNat n = 0 ↔ n = 0 := by
  rw [← UInt32.toNat_inj, UInt32.toNat_ofNat', Nat.mod_eq_of_lt hn]
  rfl

/-- A running count changes and is `0` afterwards if it was before. -/
theorem Running.keep (h : Running s toCompute c u) (hi : i ∈ toCompute) {n : Nat} {delta : UInt32}
    (hdelta : s.clausesCountSatisfied i + delta = UInt32.ofNat n)
    (hsame : decide (0 < n) = decide (0 < c i)) :
    Running s toCompute (Function.update c i n)
      { u with
        newSatisfiedCountClauses := Function.update u.newSatisfiedCountClauses i delta } where
  counts j hj := by
    by_cases hji : j = i
    · subst hji
      simpa using hdelta
    · simpa [hji] using h.counts j hj
  otherCounts j hj := by
    have hji : j ≠ i := fun heq => hj (heq ▸ hi)
    simpa [hji] using h.otherCounts j hj
  marks j hj := by
    by_cases hji : j = i
    · subst hji
      rw [Function.update_self, hsame]
      exact h.marks j hj
    · rw [Function.update_of_ne hji]
      exact h.marks j hj
  otherMarks := h.otherMarks
  sum := h.sum
  count := h.count
  unsat := h.unsat

/-- A running count reaches or leaves `0`, and the clause is marked anew. -/
theorem Running.toggle (h : Running s toCompute c u)
    (hlt : ∀ i ∈ toCompute, i < s.clauses.length) (hi : i ∈ toCompute) {n : Nat} {delta : UInt32}
    (hdelta : s.clausesCountSatisfied i + delta = UInt32.ofNat n)
    (hchange : decide (0 < n) = !decide (0 < c i)) :
    Running s toCompute (Function.update c i n)
      { newSatisfied := u.newSatisfied ++ [i]
        newSatisfiedCountClauses := Function.update u.newSatisfiedCountClauses i delta
        literalToUnsat := addUnsat (s.clause i) (if 0 < n then -1 else 1) u.literalToUnsat
        newSatisfiedSum := u.newSatisfiedSum + if 0 < n then s.weights i else -s.weights i
        newSatisfiedCount := u.newSatisfiedCount + if 0 < n then 1 else -1 } := by
  have hrange : i ∈ Finset.range s.clauses.length := Finset.mem_range.mpr (hlt i hi)
  have hmark := h.marks i hi
  have hmarks : Update.marks s
      { u with newSatisfied := u.newSatisfied ++ [i] } =
      Function.update (u.marks s) i (decide (0 < n)) := by
    rw [hchange, ← hmark]
    exact marks_append s u _ i rfl
  change (u.newSatisfied ++ [i]).foldl _ _ = _ at hmarks
  have hbefore : u.marks s i = !decide (0 < n) := by
    rw [hchange, hmark, Bool.not_not]
  refine ⟨fun j hj => ?_, fun j hj => ?_, fun j hj => ?_, fun j hj => ?_, ?_, ?_, fun v => ?_⟩
  · by_cases hji : j = i
    · subst hji
      simpa using hdelta
    · simpa [hji] using h.counts j hj
  · have hji : j ≠ i := fun heq => hj (heq ▸ hi)
    simpa [hji] using h.otherCounts j hj
  · rw [Update.marks, hmarks]
    by_cases hji : j = i
    · subst hji
      simp
    · simpa [hji] using h.marks j hj
  · have hji : j ≠ i := fun heq => hj (heq ▸ hi)
    rw [Update.marks, hmarks, Function.update_of_ne hji]
    exact h.otherMarks j hj
  · rw [Update.marks, hmarks, sum_update_mark hrange, ← h.sum, hbefore]
    by_cases hn : 0 < n <;> simp [hn]
  · rw [Update.marks, hmarks, sum_update_mark hrange, ← h.count, hbefore]
    by_cases hn : 0 < n <;> simp [hn]
  · dsimp only
    rw [Update.marks, hmarks, sum_update_mark hi, ← h.unsat, hbefore, addUnsat_apply]
    by_cases hn : 0 < n <;> simp [hn]

theorem ofNat_sub_one {n : Nat} (hn : 0 < n) : UInt32.ofNat (n - 1) = UInt32.ofNat n - 1 := by
  obtain ⟨m, rfl⟩ := Nat.exists_eq_add_of_lt hn
  simp [UInt32.ofNat_add]

/-- A true literal becomes false. -/
theorem Running.subtract (h : Running s toCompute c u)
    (hlt : ∀ i ∈ toCompute, i < s.clauses.length) (hi : i ∈ toCompute) (hpositive : 0 < c i)
    (hfits : c i < 2 ^ 32) :
    Running s toCompute (Function.update c i (c i - 1)) (s.subtract u i) := by
  have hdelta : s.clausesCountSatisfied i + (u.newSatisfiedCountClauses i - 1) =
      UInt32.ofNat (c i - 1) := by
    rw [← add_sub_assoc, h.counts i hi, ofNat_sub_one hpositive]
  have hzero := ofNat_eq_zero_iff (show c i - 1 < 2 ^ 32 by omega)
  rw [HillClimbingSolver.subtract]
  simp only [hdelta, hzero]
  split
  · next hnone =>
      have hnot : ¬ 0 < c i - 1 := by omega
      have htoggle := h.toggle hlt hi hdelta (by simp [hpositive, hnot])
      simpa only [hnot, if_false, ← sub_eq_add_neg] using htoggle
  · next hsome =>
      exact h.keep hi hdelta (by simp [hpositive, Nat.pos_of_ne_zero hsome])

/-- A false literal becomes true. -/
theorem Running.add (h : Running s toCompute c u)
    (hlt : ∀ i ∈ toCompute, i < s.clauses.length) (hi : i ∈ toCompute)
    (hfits : c i + 1 < 2 ^ 32) :
    Running s toCompute (Function.update c i (c i + 1)) (s.add u i) := by
  have hdelta : s.clausesCountSatisfied i + (u.newSatisfiedCountClauses i + 1) =
      UInt32.ofNat (c i + 1) := by
    rw [← add_assoc, h.counts i hi, UInt32.ofNat_add]
    rfl
  have hone : UInt32.ofNat (c i + 1) = 1 ↔ c i = 0 := by
    rw [UInt32.ofNat_add, show UInt32.ofNat 1 = 1 from rfl, add_eq_right,
      ofNat_eq_zero_iff (by omega)]
  rw [HillClimbingSolver.add]
  simp only [hdelta, hone]
  split
  · next hnone =>
      have htoggle := h.toggle hlt hi hdelta (by simp [hnone])
      simpa using htoggle
  · next hsome =>
      exact h.keep hi hdelta (by simp [Nat.pos_of_ne_zero hsome])

theorem Running.congr (h : Running s toCompute c u) {c' : Nat → Nat}
    (heq : ∀ i ∈ toCompute, c i = c' i) : Running s toCompute c' u where
  counts i hi := heq i hi ▸ h.counts i hi
  otherCounts := h.otherCounts
  marks i hi := heq i hi ▸ h.marks i hi
  otherMarks := h.otherMarks
  sum := h.sum
  count := h.count
  unsat := h.unsat

/-- Literals become false, one after the other. -/
theorem Running.foldl_subtract (hlt : ∀ i ∈ toCompute, i < s.clauses.length) {l : List Nat} :
    ∀ {c : Nat → Nat} {u : Update}, Running s toCompute c u → (∀ i ∈ l, i ∈ toCompute) →
      (∀ i, l.count i ≤ c i) → (∀ i ∈ toCompute, c i < 2 ^ 32) →
      Running s toCompute (fun i => c i - l.count i) (l.foldl s.subtract u) := by
  induction l with
  | nil => exact fun h _ _ _ => h
  | cons i l ih =>
      intro c u h hmem hle hfits
      obtain ⟨hi, hmem⟩ := List.forall_mem_cons.mp hmem
      have hcount : ∀ j, l.count j ≤ Function.update c i (c i - 1) j := by
        intro j
        have hj := hle j
        rw [List.count_cons] at hj
        by_cases hji : j = i
        · subst hji
          simp only [beq_self_eq_true, if_true] at hj
          rw [Function.update_self]
          omega
        · rw [Function.update_of_ne hji]
          omega
      have hpositive : 0 < c i := by
        have := hle i
        simp at this
        omega
      have hstep := h.subtract hlt hi hpositive (hfits i hi)
      refine (ih hstep hmem hcount fun j hj => ?_).congr fun j _ => ?_
      · have := hfits j hj
        rw [Function.update_apply]
        split
        · next heq => subst heq; omega
        · exact this
      · by_cases hji : j = i
        · subst hji
          rw [Function.update_self, List.count_cons_self]
          omega
        · rw [Function.update_of_ne hji, List.count_cons_of_ne (Ne.symm hji)]

/-- Literals become true, one after the other. -/
theorem Running.foldl_add (hlt : ∀ i ∈ toCompute, i < s.clauses.length) {l : List Nat} :
    ∀ {c : Nat → Nat} {u : Update}, Running s toCompute c u → (∀ i ∈ l, i ∈ toCompute) →
      (∀ i ∈ toCompute, c i + l.count i < 2 ^ 32) →
      Running s toCompute (fun i => c i + l.count i) (l.foldl s.add u) := by
  induction l with
  | nil => exact fun h _ _ => h
  | cons i l ih =>
      intro c u h hmem hfits
      obtain ⟨hi, hmem⟩ := List.forall_mem_cons.mp hmem
      have hcounts : ∀ j, Function.update c i (c i + 1) j + l.count j =
          c j + (i :: l).count j := by
        intro j
        by_cases hji : j = i
        · subst hji
          rw [Function.update_self, List.count_cons_self]
          omega
        · rw [Function.update_of_ne hji, List.count_cons_of_ne (Ne.symm hji)]
      have hroom : c i + 1 < 2 ^ 32 := by
        have := hfits i hi
        rw [List.count_cons_self] at this
        omega
      refine (ih (h.add hlt hi hroom) hmem fun j hj => ?_).congr fun j _ => hcounts j
      rw [hcounts]
      exact hfits j hj

theorem propagate_unitsOf (clause : Clause) (β : Nat → Bool) :
    clause.propagate (unitsOf β) =
      clause.literals.countP fun literal => β literal.number == literal.value := by
  apply List.countP_congr
  intro literal _
  unfold unitsOf
  cases β literal.number <;> cases literal.value <;> decide

/-- What the flip of one variable does to the number of true literals. -/
theorem propagate_flip (clause : Clause) (β : Nat → Bool) (v : Nat) :
    clause.propagate (unitsOf (Function.update β v (!β v))) + clause.literals.count ⟨v, β v⟩ =
      clause.propagate (unitsOf β) + clause.literals.count ⟨v, !β v⟩ := by
  rw [propagate_unitsOf, propagate_unitsOf]
  generalize hb : β v = b
  induction clause.literals with
  | nil => rfl
  | cons literal literals ih =>
      obtain ⟨number, value⟩ := literal
      simp only [List.countP_cons, List.count_cons]
      by_cases hv : number = v
      · subst hv
        rw [Function.update_self, hb]
        cases b <;> cases value <;> simp at ih ⊢ <;> omega
      · simp [hv]
        omega

theorem count_le_propagate (clause : Clause) (β : Nat → Bool) (v : Nat) :
    clause.literals.count ⟨v, β v⟩ ≤ clause.propagate (unitsOf β) := by
  rw [propagate_unitsOf]
  apply List.countP_mono_left
  intro literal _ heq
  rw [beq_iff_eq.mp heq]
  exact beq_self_eq_true _

variable {α β : Nat → Bool} {fixed : Set Nat} {units : Units}

/-- The two tables together. -/
def table (s : HillClimbingSolver) (value : Bool) : Nat → List Nat :=
  if value then s.literalToClauseWithPositiveValue else s.literalToClauseWithNegativeValue

theorem Ledger.count_table (h : Ledger s α toCompute fixed) (hv : v ∉ fixed) (value : Bool)
    (i : Nat) : (s.table value v).count i =
      if i ∈ toCompute then (s.clause i).literals.count ⟨v, value⟩ else 0 := by
  cases value with
  | false => exact h.negative v hv i
  | true => exact h.positive v hv i

theorem Ledger.mem_of_mem_table (h : Ledger s α toCompute fixed) (hv : v ∉ fixed) {value : Bool}
    (hi : i ∈ s.table value v) : i ∈ toCompute := by
  by_contra hnot
  have hcount := h.count_table hv value i
  rw [if_neg hnot] at hcount
  exact List.count_eq_zero.mp hcount hi

/-- The loop over one variable turns its old literal false and its new one true. -/
theorem Ledger.applyVariable (h : Ledger s α toCompute fixed) (hv : v ∉ fixed)
    (hnew : (units v != 0) = !β v)
    (hrunning : Running s toCompute (fun i => (s.clause i).propagate (unitsOf β)) u) :
    Running s toCompute
      (fun i => (s.clause i).propagate (unitsOf (Function.update β v (!β v))))
      (s.applyVariable units u v) := by
  have htables : s.applyVariable units u v =
      (s.table (!β v) v).foldl s.add ((s.table (β v) v).foldl s.subtract u) := by
    rw [HillClimbingSolver.applyVariable, hnew]
    cases β v <;> rfl
  have hlength : ∀ i ∈ toCompute, ∀ γ, (s.clause i).propagate (unitsOf γ) < 2 ^ 32 :=
    fun i hi γ => lt_of_le_of_lt List.countP_le_length (h.fits i hi)
  have hle : ∀ i, (s.table (β v) v).count i ≤ (s.clause i).propagate (unitsOf β) := by
    intro i
    rw [h.count_table hv]
    split
    · exact count_le_propagate _ β v
    · exact Nat.zero_le _
  have hafter : ∀ i ∈ toCompute, (s.clause i).propagate (unitsOf β) - (s.table (β v) v).count i +
      (s.table (!β v) v).count i =
      (s.clause i).propagate (unitsOf (Function.update β v (!β v))) := by
    intro i hi
    have hflip := propagate_flip (s.clause i) β v
    have hbound := hle i
    rw [h.count_table hv, if_pos hi] at hbound
    rw [h.count_table hv, h.count_table hv, if_pos hi, if_pos hi]
    omega
  rw [htables]
  have hsubtracted := hrunning.foldl_subtract h.toCompute_lt
    (fun i hi => h.mem_of_mem_table hv hi) hle fun i hi => hlength i hi β
  refine (hsubtracted.foldl_add h.toCompute_lt (fun i hi => h.mem_of_mem_table hv hi)
    fun i hi => ?_).congr hafter
  rw [hafter i hi]
  exact hlength i hi _

theorem flipAll_cons {closed : List Nat} (hv : v ∉ closed) :
    flipAll β (v :: closed) = flipAll (Function.update β v (!β v)) closed := by
  funext w
  unfold flipAll
  by_cases hw : w = v
  · subst hw
    simp [hv]
  · simp [hw]

/-- The whole loop leads from the counts of the old assignment to those of the new one. -/
theorem Ledger.foldl_applyVariable (h : Ledger s α toCompute fixed) {closed : List Nat} :
    ∀ {β : Nat → Bool} {u : Update}, closed.Nodup → (∀ v ∈ closed, v ∉ fixed) →
      (∀ v ∈ closed, (units v != 0) = !β v) →
      Running s toCompute (fun i => (s.clause i).propagate (unitsOf β)) u →
      Running s toCompute (fun i => (s.clause i).propagate (unitsOf (flipAll β closed)))
        (closed.foldl (s.applyVariable units) u) := by
  induction closed with
  | nil =>
      intro β u _ _ _ hrunning
      have hsame : flipAll β [] = β := by
        funext w
        simp [flipAll]
      rw [hsame]
      exact hrunning
  | cons v closed ih =>
      intro β u hnodup hfree hnew hrunning
      obtain ⟨hnot, hnodup⟩ := List.nodup_cons.mp hnodup
      obtain ⟨hv, hfree⟩ := List.forall_mem_cons.mp hfree
      obtain ⟨hvnew, hnew⟩ := List.forall_mem_cons.mp hnew
      rw [flipAll_cons hnot]
      refine ih hnodup hfree (fun w hw => ?_) (h.applyVariable hv hvnew hrunning)
      have hne : w ≠ v := fun heq => hnot (heq ▸ hw)
      rw [Function.update_of_ne hne]
      exact hnew w hw

theorem toggle_apply {closed : List Nat} (hnodup : closed.Nodup) (units : Units) (v : Nat) :
    toggle units closed v = if v ∈ closed then units v ^^^ 1 else units v := by
  rw [toggle_eq_iterate, List.Nodup.count hnodup]
  split <;> rfl

theorem toggle_unitsOf {closed : List Nat} (hnodup : closed.Nodup) (α : Nat → Bool) :
    toggle (unitsOf α) closed = unitsOf (flipAll α closed) := by
  funext v
  rw [toggle_apply hnodup]
  unfold unitsOf flipAll
  split
  · next hmem => cases α v <;> simp [hmem] <;> decide
  · next hnot => simp [hnot]

/-- The variables of the loop before its first round. -/
theorem Ledger.running (h : Ledger s α toCompute fixed) :
    Running s toCompute (fun i => (s.clause i).propagate (unitsOf α))
      { literalToUnsat := s.literalToUnsat
        newSatisfiedCount := s.satisfiedCount
        newSatisfiedSum := s.satisfiedSum } where
  counts i hi := by simpa using h.count i hi
  otherCounts _ _ := rfl
  marks i hi := by
    change s.satisfied i = _
    rw [Bool.eq_iff_iff, h.satisfied i (h.toCompute_lt i hi), decide_eq_true_iff,
      propagate_pos_iff]
    exact ⟨fun himp => himp hi, fun htrue _ => htrue⟩
  otherMarks _ _ := rfl
  sum := by
    change s.satisfiedSum = ∑ i ∈ _, if s.satisfied i then s.weights i else 0
    rw [h.satisfiedSum, ofNat_sum_marks]
    simp
  count := by
    change s.satisfiedCount = ∑ i ∈ _, if s.satisfied i then 1 else 0
    rw [h.satisfiedCount, ofNat_sum_marks]
    rfl
  unsat v := by
    change s.literalToUnsat v = ∑ i ∈ _, if s.satisfied i then 0 else _
    rw [h.literalToUnsat, ofNat_sum_marks]
    rfl

/-- What the loop leaves is a ledger for the new assignment. -/
theorem Ledger.of_running (h : Ledger s α toCompute fixed) (hunits : units = unitsOf β)
    (hrunning : Running s toCompute (fun i => (s.clause i).propagate (unitsOf β)) u) :
    Ledger { s with
      propagated := units
      literalToUnsat := u.literalToUnsat
      clausesCountSatisfied := fun i => s.clausesCountSatisfied i + u.newSatisfiedCountClauses i
      satisfiedCount := u.newSatisfiedCount
      satisfiedSum := u.newSatisfiedSum
      satisfied := u.marks s } β toCompute fixed where
  propagated := hunits
  toCompute_lt := h.toCompute_lt
  fits := h.fits
  positive := h.positive
  negative := h.negative
  count := hrunning.counts
  satisfied i hlt := by
    by_cases hi : i ∈ toCompute
    · change u.marks s i = true ↔ _
      rw [hrunning.marks i hi, decide_eq_true_iff, propagate_pos_iff]
      exact ⟨fun htrue _ => htrue, fun himp => himp hi⟩
    · change u.marks s i = true ↔ _
      rw [hrunning.otherMarks i hi, h.satisfied i hlt]
      exact iff_of_true (fun hmem => absurd hmem hi) fun hmem => absurd hmem hi
  satisfiedSum := by
    rw [ofNat_sum_marks]
    simpa using hrunning.sum
  satisfiedCount := by
    rw [ofNat_sum_marks]
    exact hrunning.count
  literalToUnsat v := by
    rw [ofNat_sum_marks]
    exact hrunning.unsat v

section Closed

variable {order : SwapOrder} {flipped closed : List Nat}

theorem Ledger.toggle_eq (h : Ledger s α toCompute fixed) (hnodup : closed.Nodup) :
    toggle s.propagated closed = unitsOf (flipAll α closed) := by
  rw [h.propagated, toggle_unitsOf hnodup]

/-- The variables of the loop after its last round. -/
theorem Ledger.running_closed (h : Ledger s α toCompute fixed) (hnodup : closed.Nodup)
    (hfree : ∀ v ∈ closed, v ∉ fixed) :
    Running s toCompute (fun i => (s.clause i).propagate (unitsOf (flipAll α closed)))
      (closed.foldl (s.applyVariable (toggle s.propagated closed))
        { literalToUnsat := s.literalToUnsat
          newSatisfiedCount := s.satisfiedCount
          newSatisfiedSum := s.satisfiedSum }) := by
  refine h.foldl_applyVariable hnodup hfree (fun v hv => ?_) h.running
  rw [h.toggle_eq hnodup]
  unfold unitsOf flipAll
  cases α v <;> simp [hv] <;> decide

/-- `apply_flipped` keeps the books exact. -/
theorem Ledger.exists_applied (h : Ledger s α toCompute fixed)
    (hclosed : s.net.compute order s.propagated flipped = some closed) (hnodup : closed.Nodup)
    (hfree : ∀ v ∈ closed, v ∉ fixed) :
    ∃ s', s.applyFlipped order flipped = some s' ∧ Ledger s' (flipAll α closed) toCompute fixed ∧
      s'.clauses = s.clauses ∧ s'.weights = s.weights := by
  refine ⟨_, by rw [HillClimbingSolver.applyFlipped, hclosed]; rfl, ?_, ?_⟩
  · exact h.of_running (h.toggle_eq hnodup) (h.running_closed hnodup hfree)
  · exact ⟨rfl, rfl⟩

/-- `apply_flipped` inverts the listed variables and keeps the ledger exact; it changes
nothing else. -/
theorem Ledger.applyFlipped_exact (h : Ledger s α toCompute fixed)
    (hclosed : s.net.compute order s.propagated flipped = some closed) (hnodup : closed.Nodup)
    (hfree : ∀ v ∈ closed, v ∉ fixed) :
    ∃ s', s.applyFlipped order flipped = some s' ∧
      (∀ v, s'.propagated v = if v ∈ closed then s.propagated v ^^^ 1 else s.propagated v) ∧
      Ledger s' (flipAll α closed) toCompute fixed ∧
      (∀ i ∉ toCompute, s'.clausesCountSatisfied i = s.clausesCountSatisfied i ∧
        s'.satisfied i = s.satisfied i) ∧
      s' = { s with
        propagated := s'.propagated
        literalToUnsat := s'.literalToUnsat
        clausesCountSatisfied := s'.clausesCountSatisfied
        satisfiedCount := s'.satisfiedCount
        satisfiedSum := s'.satisfiedSum
        satisfied := s'.satisfied } := by
  have hrunning := h.running_closed hnodup hfree
  refine ⟨_, by rw [HillClimbingSolver.applyFlipped, hclosed]; rfl, ?_, ?_, ?_, rfl⟩
  · exact toggle_apply hnodup s.propagated
  · exact h.of_running (h.toggle_eq hnodup) hrunning
  · intro i hi
    exact ⟨by simp [hrunning.otherCounts i hi], hrunning.otherMarks i hi⟩

end Closed

theorem ledger_threeClauses : Ledger threeClauses (fun _ => false) {0, 1, 2} ∅ where
  propagated := rfl
  toCompute_lt := by decide
  fits := by decide
  positive v _ i := by
    rcases v with _ | _ | _ | _ | _ | v <;> rcases i with _ | _ | _ | i <;>
      simp [threeClauses, clause]
  negative v _ i := by
    rcases v with _ | _ | _ | _ | _ | v <;> rcases i with _ | _ | _ | i <;>
      simp [threeClauses, clause]
  count := by decide
  satisfied := by decide
  satisfiedSum := by decide
  satisfiedCount := by decide
  literalToUnsat v := by
    rcases v with _ | _ | _ | v
    · decide
    · decide
    · decide
    · simp [threeClauses, clause, Clause.mentions]

theorem applyFlipped_exact_threeClauses :
    ∃ s', threeClauses.applyFlipped .leftFirst [1, 2] = some s' ∧
      Ledger s' (flipAll (fun _ => false) [1, 2, 3]) {0, 1, 2} ∅ := by
  have hclosed : threeClauses.net.compute .leftFirst threeClauses.propagated [1, 2] =
      some [1, 2, 3] := by decide +kernel
  obtain ⟨s', hs', -, hledger, -⟩ :=
    ledger_threeClauses.applyFlipped_exact hclosed (by decide) fun _ _ => id
  exact ⟨s', hs', hledger⟩

end HillClimbingSolver

end LatinSquares.LocalSearch
