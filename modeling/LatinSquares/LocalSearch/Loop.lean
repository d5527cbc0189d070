/-
# The loop of the solver

`solve` takes round after round as long as one of them finds a move or the bags can still grow.
While the books are exact every move raises the weight of the satisfied clauses, so the weights and
the sizes of the bags bound the number of rounds.
-/

import LatinSquares.LocalSearch.Check
import LatinSquares.LocalSearch.Rounds
import LatinSquares.LocalSearch.Twice

namespace LatinSquares.LocalSearch

open LatinSquares.Math

namespace HillClimbingSolver

section Improvement

variable {order : SwapOrder} {s s' next : HillClimbingSolver} {α : Nat → Bool}
variable {toCompute : Finset Nat} {fixed : Set Nat} {flipped closed : List Nat}

/-- The weights of all clauses. -/
def totalWeight (s : HillClimbingSolver) : Nat :=
  ∑ i ∈ Finset.range s.clauses.length, (s.weights i).toNat

/-- The literals of the clauses are sorted by their constructor. -/
def Sorted (s : HillClimbingSolver) (toCompute : Finset Nat) : Prop :=
  ∀ i ∈ toCompute, (s.clause i).literals.Pairwise fun a b => a.number ≤ b.number

open Classical in
/-- The solver with tables for all variables, also those that `reduce` has fixed. -/
noncomputable def withTables (s : HillClimbingSolver) (toCompute : Finset Nat) (fixed : Set Nat) :
    HillClimbingSolver :=
  { s with
    literalToClauseWithPositiveValue := fun v =>
      if v ∈ fixed then toCompute.toList.filter fun i => ⟨v, true⟩ ∈ (s.clause i).literals
      else s.literalToClauseWithPositiveValue v
    literalToClauseWithNegativeValue := fun v =>
      if v ∈ fixed then toCompute.toList.filter fun i => ⟨v, false⟩ ∈ (s.clause i).literals
      else s.literalToClauseWithNegativeValue v }

/-- The sum of the satisfied clauses does not wrap around. -/
theorem Ledger.satisfiedSum_toNat (h : Ledger s α toCompute fixed)
    (htotal : s.totalWeight < 2 ^ 32) :
    s.satisfiedSum.toNat =
      ∑ i ∈ Finset.range s.clauses.length, if s.satisfied i then (s.weights i).toNat else 0 := by
  rw [h.satisfiedSum, UInt32.toNat_ofNat', Nat.mod_eq_of_lt]
  apply lt_of_le_of_lt _ htotal
  apply Finset.sum_le_sum
  intro i _
  split
  · exact le_rfl
  · exact Nat.zero_le _

theorem Ledger.satisfiedSum_le (h : Ledger s α toCompute fixed) (htotal : s.totalWeight < 2 ^ 32) :
    s.satisfiedSum.toNat ≤ s.totalWeight := by
  rw [h.satisfiedSum_toNat htotal]
  apply Finset.sum_le_sum
  intro i _
  split
  · exact le_rfl
  · exact Nat.zero_le _

theorem Ledger.bookkeeping (h : Ledger s α toCompute fixed) (htotal : s.totalWeight < 2 ^ 32) :
    Bookkeeping (s.withTables toCompute fixed) α toCompute where
  propagated := h.propagated
  toCompute_lt := h.toCompute_lt
  positive v i := by
    simp only [withTables]
    split
    · rw [List.mem_filter, Finset.mem_toList, decide_eq_true_iff]
      rfl
    · next hv =>
        rw [← List.count_pos_iff, h.positive v hv i]
        split
        · next hi =>
            rw [List.count_pos_iff, and_iff_right hi]
            rfl
        · next hi => simp [hi]
  negative v i := by
    simp only [withTables]
    split
    · rw [List.mem_filter, Finset.mem_toList, decide_eq_true_iff]
      rfl
    · next hv =>
        rw [← List.count_pos_iff, h.negative v hv i]
        split
        · next hi =>
            rw [List.count_pos_iff, and_iff_right hi]
            rfl
        · next hi => simp [hi]
  satisfied := h.satisfied
  satisfiedSum := h.satisfiedSum_toNat htotal

/-- The tables of the fixed variables are not looked at. -/
theorem checkFlipped_withTables (hclosed : s.net.compute order s.propagated flipped = some closed)
    (hfree : ∀ v ∈ closed, v ∉ fixed) :
    (s.withTables toCompute fixed).checkFlipped order flipped = s.checkFlipped order flipped := by
  have hoccurrences : closed.flatMap (s.withTables toCompute fixed).occurrences =
      closed.flatMap s.occurrences := by
    apply List.flatMap_congr
    intro v hv
    unfold occurrences withTables
    simp [hfree v hv]
  have hcompute : (s.withTables toCompute fixed).net.compute order
      (s.withTables toCompute fixed).propagated flipped = some closed := hclosed
  rw [checkFlipped, checkFlipped, hclosed, hcompute]
  change some (decide (s.satisfiedSum < _), closed) = some (decide (s.satisfiedSum < _), closed)
  rw [hoccurrences]
  rfl

theorem Ledger.satisfiedSum_eq (h : Ledger s α toCompute fixed) (htotal : s.totalWeight < 2 ^ 32) :
    s.satisfiedSum.toNat =
      s.weightOf (s.ignored toCompute) (fun _ => true) + s.weightOf toCompute (Clause.eval α) :=
  (h.bookkeeping htotal).satisfiedSum_eq

/-- A list without a variable of the net is its own closure. -/
theorem closed_eq_of_free (hclosed : s.net.compute order s.propagated flipped = some closed)
    (hfree : ∀ node ∈ s.net.finalized, node.var ∉ closed) : closed = flipped := by
  obtain ⟨state, hrun, hstate⟩ := Option.bind_eq_some_iff.mp hclosed
  obtain rfl := Option.some.inj hstate
  have hkept : ∀ (post : List Node) (state state' : List Nat × List Nat),
      post.foldlM (s.net.computeNode order s.propagated) state = some state' →
        (∀ node ∈ post, node.var ∉ state'.1) → state'.1 = state.1 := by
    intro post
    induction post with
    | nil =>
        intro state state' hrun _
        cases hrun
        rfl
    | cons node post ih =>
        intro state state' hrun hfree
        obtain ⟨hnode, hpost⟩ := List.forall_mem_cons.mp hfree
        rw [List.foldlM_cons] at hrun
        obtain ⟨middle, hstep, hrest⟩ := Option.bind_eq_some_iff.mp hrun
        have hlist := ih middle state' hrest hpost
        rcases Net.computeNode_cases hstep with ⟨-, -, hentered⟩ | ⟨-, rfl⟩
        · -- a node that changes is in the list from then on
          rw [hlist, hentered, mem_enter] at hnode
          exact absurd (Or.inl rfl) hnode
        · exact hlist
  exact hkept s.net.finalized _ state hrun hfree

/-- A move that is its own closure raises the weight of the satisfied clauses. -/
theorem Ledger.satisfiedSum_lt (h : Ledger s α toCompute fixed) (htotal : s.totalWeight < 2 ^ 32)
    (hsorted : s.Sorted toCompute)
    (hclosed : s.net.compute order s.propagated flipped = some flipped)
    (hascending : flipped.Pairwise (· < ·)) (hfree : ∀ v ∈ flipped, v ∉ fixed)
    (hcheck : s.checkFlipped order flipped = some (true, flipped))
    (hnext : s.applyFlipped order flipped = some next) :
    Ledger next (flipAll α flipped) toCompute fixed ∧ next.clauses = s.clauses ∧
      next.weights = s.weights ∧ s.satisfiedSum.toNat < next.satisfiedSum.toNat := by
  obtain ⟨next', hnext', hledger, hclauses, hweights⟩ :=
    h.exists_applied hclosed hascending.nodup hfree
  obtain rfl := Option.some.inj (hnext.symm.trans hnext')
  refine ⟨hledger, hclauses, hweights, ?_⟩
  have htotal' : next.totalWeight < 2 ^ 32 := by
    unfold totalWeight at htotal ⊢
    rwa [hclauses, hweights]
  have hweightOf : ∀ indices p, next.weightOf indices p = s.weightOf indices p := by
    intro indices p
    unfold weightOf clause
    rw [hclauses, hweights]
  have hignored : next.ignored toCompute = s.ignored toCompute := by
    unfold ignored
    rw [hclauses]
  have hafter := hledger.satisfiedSum_eq htotal'
  rw [hignored, hweightOf, hweightOf] at hafter
  rw [h.satisfiedSum_eq htotal, hafter]
  have hfits : s.weightOf (s.ignored toCompute) (fun _ => true) +
      s.weightOf toCompute (Clause.eval (flipAll α flipped)) < 2 ^ 32 :=
    hafter ▸ next.satisfiedSum.toNat_lt
  -- `check_flipped` has found an improvement, and `apply_flipped` commits the same flips
  have hmissed : (s.withTables toCompute fixed).NoFlipMissed toCompute flipped :=
    fun i hi => (hsorted i hi).imp fun {a b} hle (_ : b.number ∈ flipped) => hle
  have hfound := checkFlipped_eq (h.bookkeeping htotal) hclosed
  rw [weightOf_propagateFlipped hascending hmissed, checkFlipped_withTables hclosed hfree, hcheck]
    at hfound
  have hlt := of_decide_eq_true (congrArg Prod.fst (Option.some.inj hfound)).symm
  exact hlt.trans_eq (Nat.mod_eq_of_lt hfits)

end Improvement

/-- The variables of the loop in `solve`. -/
structure Search where
  solver : HillClimbingSolver
  bagSize : Nat
  changed : Bool

namespace Search

/-- The condition of the loop; `limit` is `0`. -/
def GoesOn (l : Search) : Prop :=
  l.changed = true ∧ l.solver.satisfiedCount.toNat ≠ l.solver.clauses.length

/-- The end of a round. -/
def next (order : SwapOrder) {workers : Nat} (l : Search) (bagSizeEnd : Nat)
    (round : Round.State workers) (stopped : Bool) : Option Search := do
  let solver ← l.solver.commit order round
  let grows := !round.isSolutionFound && decide (l.bagSize < bagSizeEnd)
  return {
    solver
    bagSize := if grows then l.bagSize + 1 else l.bagSize
    changed := (round.isSolutionFound || grows) && !stopped }

/-- The rounds of a run; with each of them comes the value of `stopped` at its end. -/
inductive Runs (order : SwapOrder) (fuel bagSizeEnd : Nat) :
    Search → List (Round.Schedule × Bool) → Search → Prop
  | nil (l : Search) : Runs order fuel bagSizeEnd l [] l
  | cons {l l' l'' : Search} {r : Round.Schedule} {stopped : Bool}
      {rounds : List (Round.Schedule × Bool)} (hgoes : l.GoesOn)
      (htakes : l.solver.Takes order fuel r)
      (hnext : l.next order bagSizeEnd r.outcome stopped = some l')
      (hrest : Runs order fuel bagSizeEnd l' rounds l'') :
      Runs order fuel bagSizeEnd l ((r, stopped) :: rounds) l''

/-- What is left of the weights and of the sizes of the bags. -/
def rank (l : Search) (bagSizeEnd : Nat) : Nat :=
  (l.solver.totalWeight - l.solver.satisfiedSum.toNat) + (bagSizeEnd - l.bagSize) + l.changed.toNat

variable {order : SwapOrder} {s s' : HillClimbingSolver} {α : Nat → Bool}
variable {toCompute : Finset Nat} {fixed : Set Nat} {fuel bagSizeEnd : Nat} {l l' : Search}
variable {r : Round.Schedule} {rounds : List (Round.Schedule × Bool)} {stopped : Bool}

/-- The flip lists that the workers report are ascending, and have no variable of the net and none
that `reduce` has fixed. -/
def LeavesNet (fixed : Set Nat) (s : HillClimbingSolver) (r : Round.Schedule) : Prop :=
  ∀ w move, some move ∈ r.bags w → move.flipped.Pairwise (· < ·) ∧
    (∀ node ∈ s.net.finalized, node.var ∉ move.flipped) ∧ ∀ v ∈ move.flipped, v ∉ fixed

/-- The state of a loop whose books are exact. -/
structure Sums (toCompute : Finset Nat) (fixed : Set Nat) (s : HillClimbingSolver) : Prop where
  ledger : ∃ α, Ledger s α toCompute fixed
  total : s.totalWeight < 2 ^ 32
  sorted : s.Sorted toCompute

theorem Sums.congr (h : Sums toCompute fixed s) (hledger : ∃ α, Ledger s' α toCompute fixed)
    (hclauses : s'.clauses = s.clauses) (hweights : s'.weights = s.weights) :
    Sums toCompute fixed s' ∧ s'.totalWeight = s.totalWeight := by
  have htotal : s'.totalWeight = s.totalWeight := by
    unfold totalWeight
    rw [hclauses, hweights]
  refine ⟨⟨hledger, htotal ▸ h.total, ?_⟩, htotal⟩
  have hsorted := h.sorted
  unfold Sorted clause at hsorted ⊢
  rwa [hclauses]

/-- A round with a solution raises the weight of the satisfied clauses, also if several workers
write. -/
theorem Sums.commit (h : Sums toCompute fixed s) (htakes : s.Takes order fuel r)
    (hleaves : LeavesNet fixed s r) (hcommit : s.commit order r.outcome = some s')
    (hfound : r.outcome.isSolutionFound = true) :
    Sums toCompute fixed s' ∧ s'.totalWeight = s.totalWeight ∧
      s.satisfiedSum.toNat < s'.satisfiedSum.toNat := by
  obtain ⟨α, hledger⟩ := h.ledger
  obtain ⟨w, move, _, hmove, hflips, -⟩ := htakes.exists_last hfound
  obtain ⟨values, candidates, hreports⟩ := htakes.exists_reports hmove
  obtain ⟨flipped, -, hcheck⟩ := hreports.improves
  obtain ⟨hascending, hnet, hfree⟩ := hleaves w move hmove
  obtain ⟨closed, hclosed, hresult⟩ := Option.bind_eq_some_iff.mp hcheck
  obtain rfl : closed = move.flipped := congrArg Prod.snd (Option.some.inj hresult)
  -- the list that the worker reports is the one that it has tried
  obtain rfl := closed_eq_of_free hclosed hnet
  obtain ⟨_, next, -, -, hnext, -, heq⟩ := htakes.exists_commit hcommit hfound
  rw [hflips] at hnext
  obtain ⟨hledger', hclauses, hweights, hlt⟩ :=
    hledger.satisfiedSum_lt h.total h.sorted hclosed hascending hfree hcheck hnext
  have hledgers : ∃ β, Ledger s' β toCompute fixed := ⟨_, heq ▸ hledger'.withMetaValues _⟩
  obtain ⟨hsums, htotal⟩ := h.congr hledgers (by rw [heq, ← hclauses]) (by rw [heq, ← hweights])
  refine ⟨hsums, htotal, ?_⟩
  rw [heq]
  exact hlt

/-- What a round does to the loop. -/
theorem next_cases (hnext : l.next order bagSizeEnd r.outcome stopped = some l') :
    l.solver.commit order r.outcome = some l'.solver ∧
      ((r.outcome.isSolutionFound = true ∧ l'.bagSize = l.bagSize ∧ l'.changed = !stopped) ∨
        (r.outcome.isSolutionFound = false ∧ l.bagSize < bagSizeEnd ∧ l'.bagSize = l.bagSize + 1 ∧
          l'.changed = !stopped) ∨
        (r.outcome.isSolutionFound = false ∧ bagSizeEnd ≤ l.bagSize ∧ l'.bagSize = l.bagSize ∧
          l'.changed = false)) := by
  obtain ⟨solver, hcommit, hresult⟩ := Option.bind_eq_some_iff.mp hnext
  cases hresult
  refine ⟨hcommit, ?_⟩
  cases hfound : r.outcome.isSolutionFound with
  | true => simp
  | false =>
      by_cases hlt : l.bagSize < bagSizeEnd
      · simp [hlt]
      · simp [hlt, Nat.le_of_not_lt hlt]

/-- Without a solution the books stay as they are. -/
theorem commit_eq_self {workers : Nat} {round : Round.State workers}
    (hcommit : s.commit order round = some s')
    (hfound : round.isSolutionFound = false) : s' = s := by
  rw [commit, if_neg (by rw [hfound]; exact Bool.false_ne_true)] at hcommit
  exact (Option.some.inj hcommit).symm

/-- Every round uses up some of the weights or of the sizes. -/
theorem Sums.next (h : Sums toCompute fixed l.solver) (hgoes : l.GoesOn)
    (htakes : l.solver.Takes order fuel r) (hleaves : LeavesNet fixed l.solver r)
    (hnext : l.next order bagSizeEnd r.outcome stopped = some l') :
    Sums toCompute fixed l'.solver ∧
      l.solver.satisfiedSum.toNat ≤ l'.solver.satisfiedSum.toNat ∧
      l'.rank bagSizeEnd < l.rank bagSizeEnd := by
  have hone : l'.changed.toNat ≤ 1 := Bool.toNat_le _
  have hchanged : l.changed.toNat = 1 := by rw [hgoes.1]; rfl
  unfold rank
  obtain ⟨hcommit, ⟨hfound, hbag, -⟩ | ⟨hfound, hlt, hbag, -⟩ | ⟨hfound, -, hbag, hstops⟩⟩ :=
    next_cases hnext
  · obtain ⟨hsums, htotal, hsum⟩ := h.commit htakes hleaves hcommit hfound
    obtain ⟨α, hledger⟩ := hsums.ledger
    have hle := hledger.satisfiedSum_le hsums.total
    refine ⟨hsums, hsum.le, ?_⟩
    rw [hbag, hchanged]
    omega
  · rw [commit_eq_self hcommit hfound, hbag, hchanged]
    exact ⟨h, le_rfl, by omega⟩
  · rw [commit_eq_self hcommit hfound, hbag, hchanged, hstops]
    exact ⟨h, le_rfl, by simp⟩

theorem Runs.rank_le (hruns : Runs order fuel bagSizeEnd l rounds l')
    (h : Sums toCompute fixed l.solver)
    (hleaves : AllRounds order (fun s r _ => LeavesNet fixed s r) l.solver
      (rounds.map Prod.fst)) :
    Sums toCompute fixed l'.solver ∧
      l.solver.satisfiedSum.toNat ≤ l'.solver.satisfiedSum.toNat ∧
      rounds.length + l'.rank bagSizeEnd ≤ l.rank bagSizeEnd := by
  induction hruns with
  | nil l => exact ⟨h, le_rfl, (Nat.zero_add _).le⟩
  | cons hgoes htakes hnext _ ih =>
      obtain ⟨hleave, hrest⟩ := hleaves _ (next_cases hnext).1
      obtain ⟨hsums, hsum, hrank⟩ := h.next hgoes htakes hleave hnext
      obtain ⟨hlast, hsum', hrank'⟩ := ih hsums hrest
      refine ⟨hlast, hsum.trans hsum', ?_⟩
      rw [List.length_cons]
      omega

/-- A loop that nobody stops ends after a round without a solution for bags of the last size, or as
all clauses are satisfied. -/
theorem Runs.changed_or (hruns : Runs order fuel bagSizeEnd l rounds l')
    (hstopped : ∀ p ∈ rounds, p.2 = false) (h : l.changed = true) :
    l'.changed = true ∨ bagSizeEnd ≤ l'.bagSize ∧
      ∃ p, rounds.getLast? = some p ∧ p.1.outcome.isSolutionFound = false := by
  induction hruns with
  | nil l => exact Or.inl h
  | @cons l l' l'' r stopped rounds hgoes htakes hnext hrest ih =>
      obtain ⟨hfirst, hothers⟩ := List.forall_mem_cons.mp hstopped
      have hfirst : stopped = false := hfirst
      have hlast : l'.changed = true → l''.changed = true ∨ bagSizeEnd ≤ l''.bagSize ∧
          ∃ p, ((r, stopped) :: rounds).getLast? = some p ∧
            p.1.outcome.isSolutionFound = false := by
        intro hchanged
        refine (ih hothers hchanged).imp_right fun ⟨hbag, p, hp, hnone⟩ => ⟨hbag, p, ?_, hnone⟩
        rw [List.getLast?_cons, hp, Option.getD_some]
      obtain ⟨-, ⟨-, -, hchanged⟩ | ⟨-, -, -, hchanged⟩ | ⟨hnone, hle, hbag, hends⟩⟩ :=
        next_cases hnext
      · exact hlast (by rw [hchanged, hfirst]; rfl)
      · exact hlast (by rw [hchanged, hfirst]; rfl)
      · -- the loop is over
        cases hrest with
        | nil => exact Or.inr ⟨hbag ▸ hle, (r, stopped), rfl, hnone⟩
        | cons hgoes' =>
            rw [hgoes'.1] at hends
            cases hends

/-- While its moves flip ascending lists without a variable of the net, the loop of `solve` takes at
most one round for each unit of weight that is not satisfied, one for each size of the bags that is
left, and a last one. The satisfied weight never falls, and a loop that nobody stops ends with all
clauses satisfied or after a round without a solution for bags of the last size. -/
theorem runs_bounded {bagSizeStart : Nat} (h : Sums toCompute fixed s)
    (hruns : Runs order fuel bagSizeEnd ⟨s, bagSizeStart, true⟩ rounds l')
    (hleaves : AllRounds order (fun s r _ => LeavesNet fixed s r) s
      (rounds.map Prod.fst)) :
    rounds.length ≤ (s.totalWeight - s.satisfiedSum.toNat) + (bagSizeEnd - bagSizeStart) + 1 ∧
      s.satisfiedSum.toNat ≤ l'.solver.satisfiedSum.toNat ∧
      ((∀ p ∈ rounds, p.2 = false) → ¬ l'.GoesOn →
        l'.solver.satisfiedCount.toNat = l'.solver.clauses.length ∨ bagSizeEnd ≤ l'.bagSize ∧
          ∃ p, rounds.getLast? = some p ∧ p.1.outcome.isSolutionFound = false) := by
  obtain ⟨-, hsum, hrank⟩ := hruns.rank_le h hleaves
  refine ⟨(Nat.le_add_right _ _).trans hrank, hsum, fun hstopped hends => ?_⟩
  exact (hruns.changed_or hstopped rfl).imp_left
    fun hchanged => not_not.mp fun hne => hends ⟨hchanged, hne⟩

section HeavyCell

/-- A cell with two values; the clause of the other value is the heavier one. The node reads a
variable of the cell and stays false. -/
def heavyCell : HillClimbingSolver where
  __ := oneCell
  net := ⟨[.andIff 5 [⟨1, true⟩, ⟨3, true⟩]], [[], [0], [], [0]]⟩
  weights := fun i => if i = 1 then 1 else 2
  satisfiedSum := 1

theorem sums_heavyCell : Sums {0, 1} ∅ heavyCell where
  ledger := by
    refine ⟨fun v => v == 1, ?_⟩
    have h := exact_oneCell.ledger
    exact ⟨h.propagated, h.toCompute_lt, h.fits, h.positive, h.negative, h.count, h.satisfied,
      by decide, h.satisfiedCount, h.literalToUnsat⟩
  total := by decide
  sorted := by
    unfold Sorted
    decide

/-- A round of one worker for the cell. -/
abbrev heavyRound (s : HillClimbingSolver) : Round.Schedule :=
  s.schedule .rightFirst 2 1 [[0]] (List.replicate 7 (.worker ⟨0, Nat.one_pos⟩))

/-- The worker gets through its search, and what it reports is ascending and without the node. -/
def Finds (s : HillClimbingSolver) : Prop :=
  (∀ w : Fin 1,
    (((batches 1 [[0]]).getD w []).mapM (s.searchBag .rightFirst 2)).isSome = true) ∧
    (∀ w : Fin 1, (heavyRound s).outcome.phase w = .finished) ∧
    ∀ w : Fin 1, ∀ found ∈ (heavyRound s).bags w, ∀ move ∈ found,
      move.flipped.Pairwise (· < ·) ∧ ∀ node ∈ s.net.finalized, node.var ∉ move.flipped

instance : DecidablePred Finds := fun _ => inferInstanceAs (Decidable (_ ∧ _ ∧ _))

theorem Finds.takes (h : Finds s) : s.Takes .rightFirst 2 (heavyRound s) :=
  takes_schedule (by decide) h.1 h.2.1

theorem Finds.leavesNet (h : Finds s) : LeavesNet ∅ s (heavyRound s) := by
  intro w move hmove
  obtain ⟨hascending, hnet⟩ := h.2.2 w _ hmove move rfl
  exact ⟨hascending, hnet, fun v _ => Set.notMem_empty v⟩

/-- The move to the other value, and a round without a move. -/
theorem runs_bounded_heavyCell : ∃ rounds l',
    Runs .rightFirst 2 1 ⟨heavyCell, 1, true⟩ rounds l' ∧ rounds.length = 2 ∧
      rounds.length ≤ 3 ∧ ¬ l'.GoesOn := by
  have hrun : ((heavyCell.commit .rightFirst (heavyRound heavyCell).outcome).bind fun s =>
      if Finds heavyCell ∧ Finds s ∧ (heavyRound heavyCell).outcome.isSolutionFound = true ∧
        (heavyRound s).outcome.isSolutionFound = false ∧
        s.satisfiedCount.toNat ≠ s.clauses.length then some s else none).isSome = true := by
    decide +kernel
  obtain ⟨s, hs⟩ := Option.isSome_iff_exists.mp hrun
  obtain ⟨s', hcommit, hchecks⟩ := Option.bind_eq_some_iff.mp hs
  obtain ⟨⟨hfirst, hsecond, hfound, hnone, hcount⟩, hsame⟩ :=
    Option.ite_none_right_eq_some.mp hchecks
  obtain rfl := Option.some.inj hsame
  have hcommit' : s'.commit .rightFirst (heavyRound s').outcome = some s' := by
    rw [commit, if_neg (by rw [hnone]; exact Bool.false_ne_true)]
  have hnext : Search.next .rightFirst ⟨heavyCell, 1, true⟩ 1 (heavyRound heavyCell).outcome
      false = some ⟨s', 1, true⟩ := by
    simp [Search.next, hcommit, hfound]
  have hnext' : Search.next .rightFirst ⟨s', 1, true⟩ 1 (heavyRound s').outcome false =
      some ⟨s', 1, false⟩ := by
    simp [Search.next, hcommit', hnone]
  have hgoes : Search.GoesOn ⟨heavyCell, 1, true⟩ := ⟨rfl, by decide⟩
  have hruns : Runs .rightFirst 2 1 ⟨heavyCell, 1, true⟩
      [(heavyRound heavyCell, false), (heavyRound s', false)] ⟨s', 1, false⟩ :=
    .cons hgoes hfirst.takes hnext (.cons ⟨rfl, hcount⟩ hsecond.takes hnext' (.nil _))
  have hends : ¬ Search.GoesOn ⟨s', 1, false⟩ := fun hgoes => absurd hgoes.1 Bool.false_ne_true
  have hleaves : AllRounds .rightFirst (fun s r _ => LeavesNet ∅ s r) heavyCell
      [heavyRound heavyCell, heavyRound s'] := by
    intro s'' hs''
    obtain rfl := Option.some.inj (hs''.symm.trans hcommit)
    exact ⟨hfirst.leavesNet, fun _ _ => ⟨hsecond.leavesNet, trivial⟩⟩
  obtain ⟨hle, -, -⟩ := runs_bounded sums_heavyCell hruns hleaves
  exact ⟨_, _, hruns, rfl, hle.trans (by decide), hends⟩

end HeavyCell

end Search

end HillClimbingSolver

end LatinSquares.LocalSearch
