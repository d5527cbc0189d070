/-
# Duplicate removal among sampled combinations

The sampling branch of `solve` in `solver/HillClimbingSolver.cpp`: the sampled combinations
are sorted, and a loop over neighbours collects one of each kind. The loop looks at the
last combination only when it meets a combination different from its successor, so it
depends on the end of the sorted list what becomes of the largest combination.
-/

import Mathlib.Data.Finset.Max
import Mathlib.Data.List.Sort
import Mathlib.Data.List.Lex

namespace LatinSquares.LocalSearch

/-- The indices of the meta variables of a bag. Combinations are compared entry by entry. -/
abbrev Combination := List Nat

namespace Sampling

/-- The variables of the duplicate removal. -/
structure Removal where
  i : UInt32 := 0
  allPermutationIndices : List Combination
  tmp : List Combination := []

/-- How a bounded number of rounds of the loop ends. -/
inductive Outcome where
  | running
  | outside
  | done (tmp : List Combination)
  deriving DecidableEq, Repr

/-- `allPermutationIndices.size() - 1`; for the empty list it wraps around. -/
def bound (allPermutationIndices : List Combination) : Nat :=
  if allPermutationIndices.length = 0 then 2 ^ 64 - 1 else allPermutationIndices.length - 1

/-- The body of the loop, `none` for an access outside the list. A moved combination leaves
an empty one behind. -/
def body (s : Removal) : Option Removal := do
  let current ← s.allPermutationIndices[s.i.toNat]?
  let next ← s.allPermutationIndices[(s.i + 1).toNat]?
  if current != next then
    let moved := s.allPermutationIndices.set s.i.toNat []
    -- the body is reached with two combinations at least, so the 2 can be subtracted
    if s.i.toNat = s.allPermutationIndices.length - 2 then
      return { s with
        allPermutationIndices := moved.set (s.i + 1).toNat []
        tmp := s.tmp ++ [current] ++ [next] }
    else
      return { s with allPermutationIndices := moved, tmp := s.tmp ++ [current] }
  else
    return s

/-- At most `fuel` tests of the loop's condition, with the bodies between them. -/
def loop : Nat → Removal → Outcome
  | 0, _ => .running
  | fuel + 1, s =>
      if s.i.toNat < bound s.allPermutationIndices then
        match body s with
        | none => .outside
        | some s => loop fuel { s with i := s.i + 1 }
      else .done s.tmp

/-- Sorting the sampled combinations and removing duplicates. -/
def removeDuplicates (fuel : Nat) (sampled : List Combination) : Outcome :=
  loop fuel { allPermutationIndices := sampled.insertionSort (· ≤ ·) }

/-- The loop ends without an access outside the list, and leaves every combination once. -/
def LeavesEachOnce (sampled : List Combination) : Prop :=
  ∃ fuel tmp, removeDuplicates fuel sampled = .done tmp ∧
    tmp.Nodup ∧ ∀ combination, combination ∈ tmp ↔ combination ∈ sampled

/-- No combination is larger, and no other is equal. -/
def LargestOnce (sampled : List Combination) : Prop :=
  ∃ largest ∈ sampled, (∀ combination ∈ sampled, combination ≤ largest) ∧
    sampled.count largest = 1

section Survivors

variable {α : Type*} [LinearOrder α] {l : List α} {x y c : α}

/-- What the loop collects of a sorted list: the last element of each run of equal ones,
but not of a last run of two or more. -/
def survivors : List α → List α
  | x :: y :: rest =>
      if x = y then survivors (y :: rest)
      else if rest = [] then [x, y]
      else x :: survivors (y :: rest)
  | _ => []

theorem mem_of_mem_survivors (h : c ∈ survivors l) : c ∈ l := by
  induction l using survivors.induct with
  | case1 x rest ih =>
      rw [survivors, if_pos rfl] at h
      exact List.mem_cons_of_mem x (ih h)
  | case2 x y hne =>
      simpa [survivors, hne] using h
  | case3 x y rest hne hrest ih =>
      rw [survivors, if_neg hne, if_neg hrest] at h
      rcases List.mem_cons.mp h with heq | htail
      · exact heq ▸ List.mem_cons_self
      · exact List.mem_cons_of_mem x (ih htail)
  | case4 l hshort =>
      rw [survivors] at h
      · cases h
      · exact hshort

theorem nodup_survivors (hsorted : l.Pairwise (· ≤ ·)) : (survivors l).Nodup := by
  induction l using survivors.induct with
  | case1 x rest ih =>
      rw [survivors, if_pos rfl]
      exact ih hsorted.tail
  | case2 x y hne =>
      simp [survivors, hne]
  | case3 x y rest hne hrest ih =>
      rw [survivors, if_neg hne, if_neg hrest]
      apply List.nodup_cons.mpr
      have hle := List.pairwise_cons.mp hsorted
      constructor
      · intro hmem
        rcases List.mem_cons.mp (mem_of_mem_survivors hmem) with heq | htail
        · exact hne heq
        · -- the head stands both in front of its successor and behind it
          have hback := (List.pairwise_cons.mp hle.2).1 x htail
          exact hne (le_antisymm (hle.1 y List.mem_cons_self) hback)
      · exact ih hle.2
  | case4 l hshort =>
      rw [survivors]
      · exact List.nodup_nil
      · exact hshort

theorem mem_survivors_of_lt (hsorted : l.Pairwise (· ≤ ·)) {d : α} (hc : c ∈ l) (hd : d ∈ l)
    (hlt : c < d) : c ∈ survivors l := by
  induction l using survivors.induct with
  | case1 x rest ih =>
      rw [survivors, if_pos rfl]
      exact ih hsorted.tail (by simpa using hc) (by simpa using hd)
  | case2 x y hne =>
      simpa [survivors, hne] using hc
  | case3 x y rest hne hrest ih =>
      rw [survivors, if_neg hne, if_neg hrest]
      have hhead := (List.pairwise_cons.mp hsorted).1
      rcases List.mem_cons.mp hc with heq | htail
      · exact heq ▸ List.mem_cons_self
      · have hd' : d ∈ y :: rest := by
          rcases List.mem_cons.mp hd with heq | hd
          · exact absurd (hhead c htail) (not_le.mpr (heq ▸ hlt))
          · exact hd
        exact List.mem_cons_of_mem x (ih hsorted.tail htail hd')
  | case4 l hshort =>
      match l, hc, hd with
      | [x], hc, hd => simp_all
      | x :: y :: rest, _, _ => exact absurd rfl (hshort x y rest)

variable [BEq α] [LawfulBEq α]

theorem mem_survivors_of_count (hlength : 2 ≤ l.length) (hcount : l.count c = 1) :
    c ∈ survivors l := by
  induction l using survivors.induct with
  | case1 x rest ih =>
      have hne : x ≠ c := by
        intro heq
        simp [heq] at hcount
      rw [List.count_cons_of_ne hne] at hcount
      have hmem : c ∈ rest := by
        have : c ∈ x :: rest := List.count_pos_iff.mp (by omega)
        exact (List.mem_cons.mp this).resolve_left (Ne.symm hne)
      have hrest := List.length_pos_of_mem hmem
      rw [survivors, if_pos rfl]
      exact ih (by simp only [List.length_cons]; omega) hcount
  | case2 x y hne =>
      have hmem : c ∈ [x, y] := List.count_pos_iff.mp (by omega)
      simpa [survivors, hne] using hmem
  | case3 x y rest hne hrest ih =>
      have hpositive := List.length_pos_iff.mpr hrest
      rw [survivors, if_neg hne, if_neg hrest]
      by_cases hc : x = c
      · exact hc ▸ List.mem_cons_self
      · rw [List.count_cons_of_ne hc] at hcount
        exact List.mem_cons_of_mem x (ih (by simp only [List.length_cons]; omega) hcount)
  | case4 l hshort =>
      match l, hshort, hlength with
      | x :: y :: rest, hshort, _ => exact absurd rfl (hshort x y rest)

theorem lt_or_count_of_mem_survivors (hsorted : l.Pairwise (· ≤ ·)) (hc : c ∈ survivors l) :
    (∃ d ∈ l, c < d) ∨ l.count c = 1 := by
  induction l using survivors.induct with
  | case1 x rest ih =>
      rw [survivors, if_pos rfl] at hc
      rcases ih hsorted.tail hc with ⟨d, hd, hlt⟩ | hcount
      · exact Or.inl ⟨d, List.mem_cons_of_mem x hd, hlt⟩
      · by_cases hx : x = c
        · -- the run of the head ends before the list does
          subst hx
          match rest, hc, hcount, hsorted with
          | d :: rest, _, hcount, hsorted =>
              have hle : x ≤ d := (List.pairwise_cons.mp hsorted).1 d (by simp)
              have hne : x ≠ d := by
                intro heq
                simp [heq] at hcount
              exact Or.inl ⟨d, by simp, lt_of_le_of_ne hle hne⟩
        · exact Or.inr ((List.count_cons_of_ne hx).trans hcount)
  | case2 x y hne =>
      have hlt : x < y := lt_of_le_of_ne (by simpa using hsorted) hne
      rcases List.mem_cons.mp (mem_of_mem_survivors hc) with heq | hy
      · exact Or.inl ⟨y, by simp, heq ▸ hlt⟩
      · rw [List.mem_singleton.mp hy]
        exact Or.inr (by simp [hne])
  | case3 x y rest hne hrest ih =>
      rw [survivors, if_neg hne, if_neg hrest] at hc
      obtain ⟨hhead, htail⟩ := List.pairwise_cons.mp hsorted
      have hlt : x < y := lt_of_le_of_ne (hhead y List.mem_cons_self) hne
      by_cases hx : c = x
      · exact Or.inl ⟨y, by simp, hx ▸ hlt⟩
      · rcases ih htail ((List.mem_cons.mp hc).resolve_left hx) with ⟨d, hd, hlt'⟩ | hcount
        · exact Or.inl ⟨d, List.mem_cons_of_mem x hd, hlt'⟩
        · exact Or.inr ((List.count_cons_of_ne (Ne.symm hx)).trans hcount)
  | case4 l hshort =>
      rw [survivors] at hc
      · cases hc
      · exact hshort

/-- Everything survives exactly when the largest element occurs once. -/
theorem forall_mem_survivors_iff (hsorted : l.Pairwise (· ≤ ·)) (hlength : 2 ≤ l.length) :
    (∀ c, c ∈ survivors l ↔ c ∈ l) ↔ ∃ c ∈ l, (∀ d ∈ l, d ≤ c) ∧ l.count c = 1 := by
  constructor
  · intro hall
    have hnonempty : l.toFinset.Nonempty :=
      List.toFinset_nonempty_iff l |>.mpr (List.ne_nil_of_length_pos (by omega))
    obtain ⟨c, hc, hmax⟩ := l.toFinset.exists_max_image id hnonempty
    simp only [List.mem_toFinset, id] at hc hmax
    refine ⟨c, hc, hmax, ?_⟩
    rcases lt_or_count_of_mem_survivors hsorted ((hall c).mpr hc) with ⟨d, hd, hlt⟩ | hcount
    · exact absurd (hmax d hd) (not_le.mpr hlt)
    · exact hcount
  · rintro ⟨largest, hlargest, hmax, hcount⟩ c
    constructor
    · exact mem_of_mem_survivors
    · intro hc
      rcases (hmax c hc).lt_or_eq with hlt | heq
      · exact mem_survivors_of_lt hsorted hc hlargest hlt
      · exact mem_survivors_of_count hlength (heq ▸ hcount)

end Survivors

/-- From a round on whose combinations have not been moved yet, the loop collects the
survivors among them. -/
theorem loop_eq_done (rest : List Combination) :
    ∀ (moved : List Combination) (x : Combination) (s : Removal),
      s.allPermutationIndices = moved ++ x :: rest → s.i.toNat = moved.length →
      moved.length + rest.length < 2 ^ 32 →
      loop (rest.length + 1) s = .done (s.tmp ++ survivors (x :: rest)) := by
  induction rest with
  | nil =>
      intro moved x s hlist hi hlength
      have hstop : ¬ s.i.toNat < bound s.allPermutationIndices := by
        simp [bound, hlist, hi]
      rw [List.length_nil, loop, if_neg hstop]
      simp [survivors]
  | cons y rest ih =>
      intro moved x s hlist hi hlength
      simp only [List.length_cons] at hlength
      have hgo : s.i.toNat < bound s.allPermutationIndices := by
        simp [bound, hlist, hi]
      have hnext : (s.i + 1).toNat = moved.length + 1 := by
        rw [UInt32.toNat_add, hi]
        exact Nat.mod_eq_of_lt (by simpa using by omega)
      have hcurrent : s.allPermutationIndices[s.i.toNat]? = some x := by
        simp [hlist, hi]
      have hfollowing : s.allPermutationIndices[(s.i + 1).toNat]? = some y := by
        simp [hlist, hnext]
      have hset : (moved ++ x :: y :: rest).set moved.length [] = moved ++ [] :: y :: rest := by
        simp
      rw [List.length_cons, loop, if_pos hgo, body, hcurrent, hfollowing]
      by_cases hxy : x = y
      · -- nothing is moved, and the next round starts behind the current combination
        have hlater := ih (moved ++ [x]) y { s with i := s.i + 1 } (by simp [hlist])
          (by simp [hnext]) (by simp only [List.length_append, List.length_singleton]; omega)
        simpa [hxy, survivors] using hlater
      · by_cases hrest : rest = []
        · -- the last combination goes along, and the loop ends at its place
          subst hrest
          have hlater := ih (moved ++ [[]]) []
            { i := s.i + 1
              allPermutationIndices := moved ++ [[], []]
              tmp := s.tmp ++ [x] ++ [y] } (by simp)
            (by simp [hnext]) (by simp only [List.length_append, List.length_singleton]; omega)
          have hlast : s.i.toNat = s.allPermutationIndices.length - 2 := by
            simp [hlist, hi]
          simpa [hxy, hlast, hlist, hnext, hi, survivors] using hlater
        · have hlast : s.i.toNat ≠ s.allPermutationIndices.length - 2 := by
            have := List.length_pos_iff.mpr hrest
            simp only [hlist, hi, List.length_append, List.length_cons]
            omega
          have hlater := ih (moved ++ [[]]) y
            { i := s.i + 1
              allPermutationIndices := moved ++ [] :: y :: rest
              tmp := s.tmp ++ [x] } (by simp)
            (by simp [hnext]) (by simp only [List.length_append, List.length_singleton]; omega)
          rw [hi, hlist] at hlast
          simpa only [bne_iff_ne, ne_eq, hxy, not_false_eq_true, if_true, hi, hlist, hlast,
            if_false, hset, survivors, hrest, List.append_assoc, List.singleton_append,
            Option.bind_eq_bind, Option.bind_some, Option.pure_def] using hlater

theorem loop_succ {fuel : Nat} {s : Removal} {tmp : List Combination}
    (h : loop fuel s = .done tmp) : loop (fuel + 1) s = .done tmp := by
  induction fuel generalizing s with
  | zero => cases h
  | succ fuel ih =>
      rw [loop] at h ⊢
      split at h
      · rename_i hgo
        rw [if_pos hgo]
        cases hbody : body s with
        | none => simp [hbody] at h
        | some s' =>
            simp only [hbody] at h ⊢
            exact ih h
      · rename_i hstop
        rw [if_neg hstop, h]

/-- More fuel does not change the result. -/
theorem loop_of_le {fuel more : Nat} {s : Removal} {tmp : List Combination} (hle : fuel ≤ more)
    (h : loop fuel s = .done tmp) : loop more s = .done tmp := by
  induction hle with
  | refl => exact h
  | step _ ih => exact loop_succ ih

theorem done_unique {fuel fuel' : Nat} {s : Removal} {tmp tmp' : List Combination}
    (h : loop fuel s = .done tmp) (h' : loop fuel' s = .done tmp') : tmp = tmp' := by
  have hmore := loop_of_le (le_max_left fuel fuel') h
  rw [loop_of_le (le_max_right fuel fuel') h'] at hmore
  exact (Outcome.done.inj hmore).symm

theorem length_body {s s' : Removal} (h : body s = some s') :
    s'.allPermutationIndices.length = s.allPermutationIndices.length := by
  simp only [body, Option.bind_eq_bind, Option.bind_eq_some_iff] at h
  obtain ⟨current, -, next, -, h⟩ := h
  split at h
  · split at h <;> cases h <;> simp
  · cases h
    rfl

/-- The 32-bit index never reaches the bound of a list of more than `2 ^ 32` combinations. -/
theorem loop_ne_done {fuel : Nat} {s : Removal} (tmp : List Combination)
    (hlong : 2 ^ 32 < s.allPermutationIndices.length) : loop fuel s ≠ .done tmp := by
  induction fuel generalizing s with
  | zero => simp [loop]
  | succ fuel ih =>
      have hgo : s.i.toNat < bound s.allPermutationIndices := by
        have := s.i.toNat_lt
        unfold bound
        split <;> omega
      rw [loop, if_pos hgo]
      cases hbody : body s with
      | none => simp
      | some s' =>
          have hsame := length_body hbody
          apply ih
          simpa only [hsame] using hlong

theorem sorted_insertionSort (sampled : List Combination) :
    (sampled.insertionSort (· ≤ ·)).Pairwise (· ≤ ·) :=
  List.pairwise_insertionSort (· ≤ ·) sampled

/-- The result of the loop, where it has one. -/
theorem removeDuplicates_eq_done {sampled : List Combination} (hpositive : 0 < sampled.length)
    (hlength : sampled.length ≤ 2 ^ 32) :
    removeDuplicates sampled.length sampled =
      .done (survivors (sampled.insertionSort (· ≤ ·))) := by
  have hsame : (sampled.insertionSort (· ≤ ·)).length = sampled.length :=
    List.length_insertionSort (· ≤ ·) sampled
  cases hsorted : sampled.insertionSort (· ≤ ·) with
  | nil =>
      rw [hsorted, List.length_nil] at hsame
      omega
  | cons x rest =>
      rw [hsorted, List.length_cons] at hsame
      rw [removeDuplicates, hsorted, ← hsame]
      exact loop_eq_done rest [] x _ rfl rfl (by simpa using by omega)

theorem removeDuplicates_nil (fuel : Nat) (tmp : List Combination) :
    removeDuplicates fuel [] ≠ .done tmp := by
  cases fuel with
  | zero => simp [removeDuplicates, loop]
  | succ fuel => simp [removeDuplicates, loop, bound, body]

/-- The duplicate removal is right exactly for lists of two combinations or more whose
largest one was sampled once. -/
theorem leavesEachOnce_iff (sampled : List Combination) :
    LeavesEachOnce sampled ↔
      2 ≤ sampled.length ∧ sampled.length ≤ 2 ^ 32 ∧ LargestOnce sampled := by
  have hperm := List.perm_insertionSort (· ≤ ·) sampled
  have hsurvivors := forall_mem_survivors_iff (sorted_insertionSort sampled)
  constructor
  · rintro ⟨fuel, tmp, hdone, hnodup, hmem⟩
    have hpositive : 0 < sampled.length := by
      by_contra hempty
      have hnil : sampled = [] := List.eq_nil_of_length_eq_zero (by omega)
      exact removeDuplicates_nil fuel tmp (hnil ▸ hdone)
    have hlength : sampled.length ≤ 2 ^ 32 := by
      by_contra hlong
      refine loop_ne_done tmp ?_ hdone
      simpa [List.length_insertionSort] using by omega
    have htmp := done_unique hdone (removeDuplicates_eq_done hpositive hlength)
    have htwo : 2 ≤ sampled.length := by
      by_contra hone
      obtain ⟨x, rfl⟩ := List.length_eq_one_iff.mp (show sampled.length = 1 by omega)
      have := (hmem x).mpr (List.mem_singleton_self x)
      rw [htmp] at this
      simp [survivors] at this
    refine ⟨htwo, hlength, ?_⟩
    have hall : ∀ c, c ∈ survivors (sampled.insertionSort (· ≤ ·)) ↔
        c ∈ sampled.insertionSort (· ≤ ·) := by
      intro c
      rw [← htmp, hmem, hperm.mem_iff]
    obtain ⟨largest, hlargest, hmax, hcount⟩ :=
      (hsurvivors (by rwa [List.length_insertionSort])).mp hall
    exact ⟨largest, hperm.mem_iff.mp hlargest, fun c hc => hmax c (hperm.mem_iff.mpr hc),
      hperm.count_eq largest ▸ hcount⟩
  · rintro ⟨htwo, hlength, largest, hlargest, hmax, hcount⟩
    have hall := (hsurvivors (by rwa [List.length_insertionSort])).mpr
      ⟨largest, hperm.mem_iff.mpr hlargest, fun c hc => hmax c (hperm.mem_iff.mp hc),
        (hperm.count_eq largest).trans hcount⟩
    refine ⟨_, _, removeDuplicates_eq_done (by omega) hlength,
      nodup_survivors (sorted_insertionSort sampled), ?_⟩
    intro c
    rw [hall, hperm.mem_iff]

/-- A combination sampled twice and no other: it is lost. -/
theorem not_leavesEachOnce_pair : ¬ LeavesEachOnce [[0, 1], [0, 1]] := by
  rintro ⟨fuel, tmp, hdone, -, hmem⟩
  have hrun : removeDuplicates 2 [[0, 1], [0, 1]] = .done [] := by decide
  rw [done_unique hdone hrun] at hmem
  simpa using hmem [0, 1]

end Sampling

end LatinSquares.LocalSearch
