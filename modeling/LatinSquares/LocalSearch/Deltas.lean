/-
# Adding up the changes of a bag

The loops of `satisfyPredicateForDomain` in `solver/HillClimbingSolver.cpp`: what the new values
of a bag change in the counters, one cell after the other, with the old values for all other
cells. The result is the change of the conflicts, as long as a pair of squares has its own
counters and no position changes in both.
-/

import LatinSquares.LocalSearch.RoundTables

namespace LatinSquares.LocalSearch

open LatinSquares.Math

/-- The changes in one row or column: `++` for the new symbol and `--` for the old one. -/
def shift (old new : Nat) (delta : Nat → Int) : Nat → Int :=
  let delta := Function.update delta new (delta new + 1)
  Function.update delta old (delta old - 1)

/-- The parallel vectors `changedRows[k]` and `valuesRows[k]`, or those for columns. -/
abbrev Lines := List (Nat × (Nat → Int))

/-- The search for a row or column in the changed ones, and the change in its entry. -/
def Lines.note (position old new : Nat) : Lines → Lines
  | [] => [(position, shift old new fun _ => 0)]
  | (changed, delta) :: lines =>
      if changed = position then (changed, shift old new delta) :: lines
      else (changed, delta) :: Lines.note position old new lines

/-- `--pairsIndexDelta` for the pair that goes, `++pairsIndexDelta` for the one that comes, and
the changes of `sum`. -/
def exchange (pairsIndex : Nat × Nat → Nat) (gone come : Nat × Nat)
    (state : (Nat × Nat → Int) × Int) : (Nat × Nat → Int) × Int :=
  let delta := Function.update state.1 gone (state.1 gone - 1)
  let sum := if delta gone + pairsIndex gone = 0 then state.2 + 1 else state.2
  let delta := Function.update delta come (delta come + 1)
  let sum := if delta come + pairsIndex come = 1 then sum - 1 else sum
  (delta, sum)

/-- What a counter of a row or column adds to `sum`. -/
def counterChange (prev : Nat) (delta : Int) : Int :=
  if delta = 0 then 0
  else
    ((prev + delta) * (prev + delta - 1)).tdiv 2 - (prev * (prev - 1) : Int).tdiv 2 +
      ((if prev + delta = 0 then 1 else 0) - if prev = 0 then 1 else 0)

/-- What the changed rows or columns of a square add to `sum`. -/
def Lines.change (size : Nat) (prev : Nat → Nat → Nat) (lines : Lines) : Int :=
  (lines.map fun line =>
    ((List.range size).map fun j => counterChange (prev line.1 j) (line.2 j)).sum).sum

/-- The variables of `satisfyPredicateForDomain`. -/
structure Deltas where
  sum : Int := 0
  valuesRows : Nat → Lines := fun _ => []
  valuesColumns : Nat → Lines := fun _ => []
  pairsIndexDelta : Nat × Nat → Int := fun _ => 0

/-- The body of the loop over the pairs of squares, for a cell of one square. -/
def exchangeAt (metaValues : List (List (List UInt32))) (pairsIndex : Nat × Nat → Nat)
    (place : Nat × Nat × Nat) (new : Nat) (state : (Nat × Nat → Int) × Int) (p : Nat × Nat) :
    (Nat × Nat → Int) × Int :=
  let size := (metaValues.getD 0 []).length
  let old := symbolAt metaValues place
  if p.1 = place.1 then
    let val2 := symbolAt metaValues (p.2, place.2)
    exchange pairsIndex (pairKey size p old val2) (pairKey size p new val2) state
  else if p.2 = place.1 then
    let val1 := symbolAt metaValues (p.1, place.2)
    exchange pairsIndex (pairKey size p val1 old) (pairKey size p val1 new) state
  else state

/-- The body of the loop over the bag, for a cell and the index of its new symbol. -/
def Deltas.write (metaValues : List (List (List UInt32))) (pairsIndex : Nat × Nat → Nat)
    (d : Deltas) (c : (Nat × Nat × Nat) × Nat) : Deltas :=
  let (k, i, j) := c.1
  let old := symbolAt metaValues c.1
  let pairs := (squareLoop metaValues.length).foldl (exchangeAt metaValues pairsIndex c.1 c.2)
    (d.pairsIndexDelta, d.sum)
  { sum := pairs.2
    valuesRows := Function.update d.valuesRows k ((d.valuesRows k).note i old c.2)
    valuesColumns := Function.update d.valuesColumns k ((d.valuesColumns k).note j old c.2)
    pairsIndexDelta := pairs.1 }

/-- The final value of `sum`. -/
def Deltas.total (metaValues : List (List (List UInt32)))
    (rowsDistinct columnsDistinct : Nat × Nat × Nat → Nat) (d : Deltas) : Int :=
  let size := (metaValues.getD 0 []).length
  d.sum + ((List.range metaValues.length).map fun k =>
    (d.valuesRows k).change size (fun row j => rowsDistinct (k, row, j)) +
      (d.valuesColumns k).change size fun column j => columnsDistinct (k, column, j)).sum

section Lines

variable {position old new i s size : Nat} {lines : Lines} {prev : Nat → Nat → Nat}

/-- The change noted for a row or column. -/
def Lines.deltaAt : Lines → Nat → Nat → Int
  | [], _ => fun _ => 0
  | (changed, delta) :: lines, i => if i = changed then delta else Lines.deltaAt lines i

theorem Lines.deltaAt_cons (changed : Nat) (delta : Nat → Int) (lines : Lines) :
    Lines.deltaAt ((changed, delta) :: lines) = Function.update lines.deltaAt changed delta := by
  funext i
  rw [Function.update_apply]
  rfl

theorem Lines.deltaAt_of_notMem (h : i ∉ lines.map Prod.fst) : lines.deltaAt i = fun _ => 0 := by
  induction lines with
  | nil => rfl
  | cons line lines ih =>
      obtain ⟨hhead, htail⟩ := not_or.mp (List.mem_cons.not.mp h)
      exact (if_neg hhead).trans (ih htail)

theorem shift_apply (old new : Nat) (delta : Nat → Int) (s : Nat) : shift old new delta s =
    delta s - (if old = s then 1 else 0) + (if new = s then 1 else 0) := by
  unfold shift
  by_cases hold : old = s
  · subst hold
    by_cases hnew : new = old
    · subst hnew
      simp
    · simp [hnew, Ne.symm hnew]
  · by_cases hnew : new = s
    · subst hnew
      simp [hold, Ne.symm hold]
    · simp [hold, hnew, Ne.symm hold, Ne.symm hnew]

theorem Lines.deltaAt_note : (lines.note position old new).deltaAt i s =
    lines.deltaAt i s + if i = position then
      (if new = s then 1 else 0) - (if old = s then 1 else 0) else 0 := by
  induction lines with
  | nil =>
      by_cases hi : i = position
      · simp [Lines.note, Lines.deltaAt, hi, shift_apply]
        ring
      · simp [Lines.note, Lines.deltaAt, hi]
  | cons line lines ih =>
      obtain ⟨changed, delta⟩ := line
      rw [Lines.note]
      by_cases hchanged : changed = position
      · rw [if_pos hchanged, Lines.deltaAt, Lines.deltaAt]
        subst hchanged
        by_cases hi : i = changed
        · simp only [hi, if_true, shift_apply]
          ring
        · simp [hi]
      · rw [if_neg hchanged, Lines.deltaAt, Lines.deltaAt]
        by_cases hi : i = changed
        · simp [hi, hchanged]
        · simpa [hi] using ih

/-- The rows or columns that have changed are different ones. -/
structure Lines.Within (lines : Lines) (size : Nat) : Prop where
  nodup : (lines.map Prod.fst).Nodup
  lt : ∀ i ∈ lines.map Prod.fst, i < size

theorem Lines.map_fst_note : (lines.note position old new).map Prod.fst =
    if position ∈ lines.map Prod.fst then lines.map Prod.fst
    else lines.map Prod.fst ++ [position] := by
  induction lines with
  | nil => rfl
  | cons line lines ih =>
      obtain ⟨changed, delta⟩ := line
      rw [Lines.note]
      by_cases hchanged : changed = position
      · simp [hchanged]
      · rw [if_neg hchanged, List.map_cons, List.map_cons, ih]
        simp only [List.mem_cons, Ne.symm hchanged, false_or]
        split <;> rfl

theorem Lines.Within.note (h : lines.Within size) (hposition : position < size) :
    (lines.note position old new).Within size := by
  refine ⟨?_, ?_⟩ <;> rw [Lines.map_fst_note] <;> split
  · exact h.nodup
  · next hnot =>
      exact List.nodup_append.mpr ⟨h.nodup, List.nodup_singleton _, fun a ha b hb heq =>
        hnot (List.mem_singleton.mp hb ▸ heq ▸ ha)⟩
  · exact h.lt
  · intro i hi
    rcases List.mem_append.mp hi with hi | hi
    · exact h.lt i hi
    · rwa [List.mem_singleton.mp hi]

theorem counterChange_zero (prev : Nat) : counterChange prev 0 = 0 := if_pos rfl

/-- The change of what a counter adds to the conflicts. -/
theorem counterChange_eq {before after : Nat} {delta : Int} (h : (before : Int) + delta = after) :
    counterChange before delta = excess after - excess before := by
  rw [counterChange]
  split
  · next hzero =>
      obtain rfl : before = after := by omega
      exact (sub_self _).symm
  · rw [h, excess_eq, excess_eq]
    simp only [Nat.cast_eq_zero]
    ring

theorem sum_map_range_eq (f : Nat → Int) (size : Nat) :
    ((List.range size).map f).sum = ∑ j ∈ Finset.range size, f j := rfl

theorem Lines.change_cons (line : Nat × (Nat → Int)) :
    Lines.change size prev (line :: lines) =
      ∑ s ∈ Finset.range size, counterChange (prev line.1 s) (line.2 s) +
        Lines.change size prev lines := by
  rw [Lines.change, List.map_cons, List.sum_cons, sum_map_range_eq]
  rfl

/-- The loop over the changed lines adds up the changes of all lines. -/
theorem Lines.change_eq (h : lines.Within size) : lines.change size prev =
    ∑ i ∈ Finset.range size, ∑ s ∈ Finset.range size,
      counterChange (prev i s) (lines.deltaAt i s) := by
  induction lines with
  | nil => simp [Lines.change, Lines.deltaAt, counterChange_zero]
  | cons line lines ih =>
      obtain ⟨changed, delta⟩ := line
      obtain ⟨hnot, hnodup⟩ := List.nodup_cons.mp h.nodup
      have hlines : Lines.Within lines size :=
        ⟨hnodup, fun i hi => h.lt i (List.mem_cons_of_mem _ hi)⟩
      have hchanged : changed ∈ Finset.range size :=
        Finset.mem_range.mpr (h.lt changed List.mem_cons_self)
      have hzero : ∑ s ∈ Finset.range size,
          counterChange (prev changed s) (Lines.deltaAt lines changed s) = 0 := by
        rw [Lines.deltaAt_of_notMem hnot]
        exact Finset.sum_eq_zero fun s _ => counterChange_zero _
      have hsum := sum_update (Lines.deltaAt lines) delta (fun i delta =>
        ∑ s ∈ Finset.range size, counterChange (prev i s) (delta s)) hchanged
      rw [Lines.change_cons, ih hlines, Lines.deltaAt_cons, hsum, hzero]
      ring

end Lines

section Pairs

variable {metaValues : List (List (List UInt32))} {pairsIndex : Nat × Nat → Nat} {squares n : Nat}
variable {base : Int} {F F' : Nat × Nat → Nat × Nat → Nat × Nat}
variable {state : (Nat × Nat → Int) × Int}
variable {gone come : Nat × Nat} {p c : Nat × Nat} {M : Cell → Nat} {place : Cell} {new : Nat}

/-- A pair that is exchanged for itself changes nothing. -/
theorem exchange_self (pairsIndex : Nat × Nat → Nat) (key : Nat × Nat)
    (state : (Nat × Nat → Int) × Int) : exchange pairsIndex key key state = state := by
  have hsum : ∀ count : Int, (if count - 1 + 1 = 1 then (if count - 1 = 0 then state.2 + 1
      else state.2) - 1 else if count - 1 = 0 then state.2 + 1 else state.2) = state.2 := by
    intro count
    by_cases hone : count = 1
    · simp [hone]
    · simp [hone, sub_eq_zero]
  refine Prod.ext ?_ ?_
  · simp [exchange]
  · have hcount := hsum (state.1 key + pairsIndex key)
    simp only [exchange, Function.update_self]
    convert hcount using 3 <;> ring_nf

theorem exchange_of_ne (hne : gone ≠ come) : exchange pairsIndex gone come state =
    (Function.update (Function.update state.1 gone (state.1 gone - 1)) come (state.1 come + 1),
      state.2 + (if state.1 gone + pairsIndex gone - 1 = 0 then 1 else 0) -
        if state.1 come + pairsIndex come = 0 then 1 else 0) := by
  refine Prod.ext ?_ ?_
  · simp [exchange, hne.symm]
  · have hgone : state.1 gone - 1 + pairsIndex gone = state.1 gone + pairsIndex gone - 1 := by ring
    have hcome : state.1 come + 1 + pairsIndex come = 1 ↔ state.1 come + pairsIndex come = 0 := by
      omega
    simp only [exchange, Function.update_self, Function.update_of_ne hne.symm, hgone, hcome]
    split <;> split <;> ring

/-- The counters belong to the superimposed squares `F p` if every pair of squares has its own
ones, and `sum` is the number of pairs these miss, less `base`. -/
structure Tracks (squares n : Nat) (pairsIndex : Nat × Nat → Nat) (base : Int)
    (F : Nat × Nat → Nat × Nat → Nat × Nat) (state : (Nat × Nat → Int) × Int) : Prop where
  counters : squares ≤ 3 → ∀ p ∈ squarePairs squares, ∀ v ∈ grid n,
    state.1 (pairKey n p v.1 v.2) + pairsIndex (pairKey n p v.1 v.2) = tally (grid n) (F p) v
  sum : state.2 = ∑ p ∈ squarePairs squares, (missing (grid n) (F p) (grid n) : Int) - base

theorem Tracks.congr (h : Tracks squares n pairsIndex base F state)
    (hF : ∀ p ∈ squarePairs squares, F' p = F p) :
    Tracks squares n pairsIndex base F' state where
  counters hsquares p hp v hv := by rw [hF p hp, h.counters hsquares p hp v hv]
  sum := by
    have hmissing : ∑ p ∈ squarePairs squares, (missing (grid n) (F' p) (grid n) : Int) =
        ∑ p ∈ squarePairs squares, (missing (grid n) (F p) (grid n) : Int) :=
      Finset.sum_congr rfl fun p hp => by rw [hF p hp]
    rw [hmissing]
    exact h.sum

/-- The pair at one position is exchanged. -/
theorem Tracks.exchange (h : Tracks squares n pairsIndex base F state) (hsquares : squares ≤ 3)
    (hp : p ∈ squarePairs squares) (hc : c ∈ grid n) (hgone : F p c ∈ grid n)
    (hcome : come ∈ grid n) :
    Tracks squares n pairsIndex base (Function.update F p (Function.update (F p) c come))
      (exchange pairsIndex (pairKey n p (F p c).1 (F p c).2) (pairKey n p come.1 come.2)
        state) := by
  by_cases hne : F p c = come
  · rw [hne, exchange_self, ← hne, Function.update_eq_self, Function.update_eq_self]
    exact h
  · have hkeys : pairKey n p (F p c).1 (F p c).2 ≠ pairKey n p come.1 come.2 := fun heq =>
      hne ((pairKey_inj hsquares hp hp hgone hcome).mp heq).2
    rw [exchange_of_ne hkeys]
    refine ⟨fun _ q hq v hv => ?_, ?_⟩
    · have hold := h.counters hsquares q hq v hv
      have hcomeKey := pairKey_inj (n := n) hsquares hq hp hv hcome
      have hgoneKey := pairKey_inj (n := n) hsquares hq hp hv hgone
      simp only [Function.update_apply, hcomeKey, hgoneKey]
      by_cases hqp : q = p
      · subst hqp
        rw [if_pos rfl, tally_update hc, ← hold]
        by_cases hvc : v = come
        · subst hvc
          simp [hne]
          ring
        · by_cases hvg : v = F q c
          · subst hvg
            simp [hvc, Ne.symm hvc]
            ring
          · simp [hvc, hvg, Ne.symm hvc, Ne.symm hvg]
      · simpa [hqp] using hold
    · have hsum := sum_update F (Function.update (F p) c come)
        (fun _ f => (missing (grid n) f (grid n) : Int)) hp
      rw [hsum, missing_update hc hgone hcome hne, h.sum, h.counters hsquares p hp _ hgone,
        h.counters hsquares p hp _ hcome]
      simp only [Nat.cast_eq_zero]
      ring

/-- At a cell that keeps its symbol nothing is exchanged. -/
theorem exchangeAt_self (h : new = symbolAt metaValues place) :
    exchangeAt metaValues pairsIndex place new state p = state := by
  subst h
  unfold exchangeAt
  split
  · exact exchange_self _ _ _
  · split
    · exact exchange_self _ _ _
    · rfl

/-- A cell receives another symbol; the other cells at its position have the symbols of
`metaValues`. -/
theorem Tracks.exchangeAt (h : Tracks squares n pairsIndex base F state)
    (hfilled : Filled metaValues squares n) (hsquares : squares ≤ 3)
    (hp : p ∈ squarePairs squares) (hplace : place ∈ cube squares n) (hnew : new < n)
    (hM : ∀ k < squares, M (k, place.2) = symbolAt metaValues (k, place.2))
    (hF : F p = superimposed M p) :
    Tracks squares n pairsIndex base
      (Function.update F p (superimposed (Function.update M place new) p))
        (exchangeAt metaValues pairsIndex place new state p) := by
  obtain ⟨hlt, hlast⟩ := mem_squarePairs.mp hp
  have hsize : (metaValues.getD 0 []).length = n := hfilled.getD_length (by omega)
  have hc : place.2 ∈ grid n := (Finset.mem_product.mp hplace).2
  have hvalue : F p place.2 = superimposed (symbolAt metaValues) p place.2 := by
    rw [hF, superimposed, superimposed, hM _ (hlt.trans hlast), hM _ hlast]
  have hgone : F p place.2 ∈ grid n := hvalue ▸ hfilled.superimposed_mem hp hc
  have hsymbols := mem_grid.mp (hfilled.superimposed_mem hp hc)
  unfold LocalSearch.exchangeAt
  simp only [hsize]
  split
  · next hfirst =>
      have hstep := h.exchange hsquares hp hc hgone
        (mem_grid.mpr ⟨hnew, hsymbols.2⟩ : (new, symbolAt metaValues (p.2, place.2)) ∈ grid n)
      rw [superimposed_update_first hlt.ne hfirst.symm, hM _ hlast, ← hF]
      rw [hvalue] at hstep
      have hold : symbolAt metaValues place = symbolAt metaValues (p.1, place.2) := by rw [hfirst]
      rw [hold]
      exact hstep
  · split
    · next hsecond =>
        have hstep := h.exchange hsquares hp hc hgone
          (mem_grid.mpr ⟨hsymbols.1, hnew⟩ : (symbolAt metaValues (p.1, place.2), new) ∈ grid n)
        rw [superimposed_update_second hlt.ne hsecond.symm, hM _ (hlt.trans hlast), ← hF]
        rw [hvalue] at hstep
        have hold : symbolAt metaValues place = symbolAt metaValues (p.2, place.2) := by
          rw [hsecond]
        rw [hold]
        exact hstep
    · next hfirst hsecond =>
        rw [superimposed_update_of_ne (Ne.symm hfirst) (Ne.symm hsecond), ← hF,
          Function.update_eq_self]
        exact h

/-- The loop over pairs of squares. -/
theorem Tracks.foldl_exchangeAt (h : Tracks squares n pairsIndex base F state)
    (hfilled : Filled metaValues squares n) (hsquares : squares ≤ 3)
    (hplace : place ∈ cube squares n) (hnew : new < n)
    (hM : ∀ k < squares, M (k, place.2) = symbolAt metaValues (k, place.2))
    {pairs : List (Nat × Nat)} (hnodup : pairs.Nodup)
    (hpairs : ∀ p ∈ pairs, p ∈ squarePairs squares)
    (hF : ∀ p ∈ pairs, F p = superimposed M p) :
    Tracks squares n pairsIndex base
      (fun p => if p ∈ pairs then superimposed (Function.update M place new) p else F p)
        (pairs.foldl (LocalSearch.exchangeAt metaValues pairsIndex place new) state) := by
  induction pairs generalizing F state with
  | nil => simpa using h
  | cons p pairs ih =>
      obtain ⟨hnot, hnodup⟩ := List.nodup_cons.mp hnodup
      obtain ⟨hp, hpairs⟩ := List.forall_mem_cons.mp hpairs
      obtain ⟨hhead, htail⟩ := List.forall_mem_cons.mp hF
      have hne : ∀ q ∈ pairs, q ≠ p := fun q hq heq => hnot (heq ▸ hq)
      have hrest := ih (h.exchangeAt hfilled hsquares hp hplace hnew hM hhead) hnodup hpairs
        fun q hq => by rw [Function.update_of_ne (hne q hq), htail q hq]
      refine hrest.congr fun q _ => ?_
      by_cases hq : q ∈ pairs
      · simp [hq]
      · by_cases hqp : q = p
        · simp [hqp, hnot]
        · simp [hq, hqp]

end Pairs

section Bag

variable {metaValues : List (List (List UInt32))} {pairsIndex : Nat × Nat → Nat} {squares n : Nat}
variable {choices : List (Cell × Nat)} {choice : Cell × Nat} {d : Deltas} {place : Cell}

/-- The symbols once the chosen ones have been written. -/
def written (M : Cell → Nat) (choices : List (Cell × Nat)) : Cell → Nat :=
  choices.foldl (fun M choice => Function.update M choice.1 choice.2) M

theorem written_append_singleton (M : Cell → Nat) (choices : List (Cell × Nat))
    (choice : Cell × Nat) :
    written M (choices ++ [choice]) = Function.update (written M choices) choice.1 choice.2 := by
  rw [written, List.foldl_append]
  rfl

theorem written_of_unchanged {M : Cell → Nat}
    (h : ∀ choice ∈ choices, choice.1 = place → choice.2 = M place) :
    written M choices place = M place := by
  induction choices using List.reverseRecOn with
  | nil => rfl
  | append_singleton choices choice ih =>
      rw [written_append_singleton, Function.update_apply]
      split
      · next heq => exact h choice (by simp) heq.symm
      · exact ih fun choice hchoice => h choice (List.mem_append_left _ hchoice)

/-- Symbols for different cells. -/
structure Choices (squares n : Nat) (choices : List (Cell × Nat)) : Prop where
  nodup : (choices.map Prod.fst).Nodup
  within : ∀ choice ∈ choices, choice.1 ∈ cube squares n ∧ choice.2 < n

/-- No position changes in two squares, and where a cell changes at all, there are at most three
squares. -/
structure ChangesApart (metaValues : List (List (List UInt32))) (squares : Nat)
    (choices : List (Cell × Nat)) : Prop where
  squares : (∃ choice ∈ choices, choice.2 ≠ symbolAt metaValues choice.1) → squares ≤ 3
  apart : choices.Pairwise fun choice choice' => choice.1.2 = choice'.1.2 →
    choice.2 = symbolAt metaValues choice.1 ∨ choice'.2 = symbolAt metaValues choice'.1

/-- The changes noted for the lines of one kind are those of the counters. -/
theorem tally_add_deltaAt_note {line : Nat → Nat → Finset Cell} {position new k i s : Nat}
    {M N : Cell → Nat} {lines : Nat → Lines}
    (hline : ∀ k i, place ∈ line k i ↔ place.1 = k ∧ position = i) (hN : N place = M place)
    (hlines : (tally (line k i) M s : Int) + (lines k).deltaAt i s = tally (line k i) N s) :
    (tally (line k i) M s : Int) + Lines.deltaAt (Function.update lines place.1
      ((lines place.1).note position (M place) new) k) i s =
        tally (line k i) (Function.update N place new) s := by
  by_cases hk : k = place.1
  · subst hk
    rw [Function.update_self, Lines.deltaAt_note, ← add_assoc, hlines]
    by_cases hi : i = position
    · rw [if_pos hi, tally_update ((hline _ _).mpr ⟨rfl, hi.symm⟩), hN]
      ring
    · rw [if_neg hi, tally_update_of_notMem fun hmem => hi ((hline _ _).mp hmem).2.symm, add_zero]
  · rw [Function.update_of_ne hk, hlines,
      tally_update_of_notMem fun hmem => hk ((hline _ _).mp hmem).1.symm]

/-- The variables of the filter after the first choices. -/
structure Deltas.Exact (metaValues : List (List (List UInt32))) (pairsIndex : Nat × Nat → Nat)
    (squares n : Nat) (choices : List (Cell × Nat)) (d : Deltas) : Prop where
  rows : ∀ k i, i < n → ∀ s, (tally (rowCells n k i) (symbolAt metaValues) s : Int) +
    (d.valuesRows k).deltaAt i s = tally (rowCells n k i) (written (symbolAt metaValues) choices) s
  columns : ∀ k j, j < n → ∀ s, (tally (columnCells n k j) (symbolAt metaValues) s : Int) +
    (d.valuesColumns k).deltaAt j s =
      tally (columnCells n k j) (written (symbolAt metaValues) choices) s
  rowsWithin : ∀ k, (d.valuesRows k).Within n
  columnsWithin : ∀ k, (d.valuesColumns k).Within n
  pairs : Tracks squares n pairsIndex
    (∑ p ∈ squarePairs squares, (missing (grid n) (superimposed (symbolAt metaValues) p) (grid n)))
      (superimposed (written (symbolAt metaValues) choices)) (d.pairsIndexDelta, d.sum)

theorem Deltas.exact_nil (hfilled : Filled metaValues squares n) :
    Deltas.Exact metaValues (LocalSearch.pairsIndex metaValues) squares n [] {} where
  rows _ _ _ _ := add_zero _
  columns _ _ _ _ := add_zero _
  rowsWithin _ := ⟨List.nodup_nil, fun i hi => absurd hi List.not_mem_nil⟩
  columnsWithin _ := ⟨List.nodup_nil, fun i hi => absurd hi List.not_mem_nil⟩
  pairs := {
    counters := fun hsquares p hp v hv => by
      rw [pairsIndex_eq hfilled hsquares hp hv]
      exact zero_add _
    sum := by
      push_cast
      exact (sub_self _).symm }

/-- One round of the loop over the bag. -/
theorem Deltas.Exact.write (h : d.Exact metaValues pairsIndex squares n choices)
    (hfilled : Filled metaValues squares n) (hchoices : Choices squares n (choices ++ [choice]))
    (happart : ChangesApart metaValues squares (choices ++ [choice])) :
    (d.write metaValues pairsIndex choice).Exact metaValues pairsIndex squares n
      (choices ++ [choice]) := by
  obtain ⟨place, new⟩ := choice
  obtain ⟨hplace, hnew⟩ := hchoices.within (place, new) (by simp)
  have hfresh : place ∉ choices.map Prod.fst := by
    have hnodup := hchoices.nodup
    rw [List.map_append, List.nodup_append] at hnodup
    exact fun hmem => hnodup.2.2 place hmem place (by simp) rfl
  have hkept : written (symbolAt metaValues) choices place = symbolAt metaValues place :=
    written_of_unchanged fun choice hchoice heq =>
      absurd (heq ▸ List.mem_map_of_mem hchoice) hfresh
  have hbounds := mem_grid.mp (Finset.mem_product.mp hplace).2
  have hwithin {lines : Nat → Lines} {position : Nat} (hlines : ∀ k, (lines k).Within n)
      (hposition : position < n) (k : Nat) : (Function.update lines place.1
        ((lines place.1).note position (symbolAt metaValues place) new) k).Within n := by
    by_cases hk : k = place.1
    · rw [hk, Function.update_self]
      exact (hlines place.1).note hposition
    · rw [Function.update_of_ne hk]
      exact hlines k
  rw [Deltas.write]
  refine ⟨fun k i hi s => ?_, fun k j hj s => ?_, fun k => ?_, fun k => ?_, ?_⟩
  · rw [written_append_singleton]
    refine tally_add_deltaAt_note (fun k i => ?_) hkept (h.rows k i hi s)
    rw [mem_rowCells, and_iff_left hbounds.2]
  · rw [written_append_singleton]
    refine tally_add_deltaAt_note (fun k j => ?_) hkept (h.columns k j hj s)
    rw [mem_columnCells]
    exact and_congr_right fun _ => and_iff_right hbounds.1
  · exact hwithin h.rowsWithin hbounds.1 k
  · exact hwithin h.columnsWithin hbounds.2 k
  · rw [written_append_singleton, Prod.mk.eta]
    by_cases hnew' : new = symbolAt metaValues place
    · have hstill : ∀ pairs : List (Nat × Nat), pairs.foldl
          (exchangeAt metaValues pairsIndex place new) (d.pairsIndexDelta, d.sum) =
            (d.pairsIndexDelta, d.sum) := by
        intro pairs
        induction pairs with
        | nil => rfl
        | cons p pairs ih => rw [List.foldl_cons, exchangeAt_self hnew', ih]
      rw [hstill, hnew', ← hkept, Function.update_eq_self]
      exact h.pairs
    · have hsquares := happart.squares ⟨(place, new), by simp, hnew'⟩
      -- the other squares still have their old symbols at this position
      have hM : ∀ k < squares, written (symbolAt metaValues) choices (k, place.2) =
          symbolAt metaValues (k, place.2) := by
        refine fun k _ => written_of_unchanged fun choice hchoice heq => ?_
        have hpair := (List.pairwise_append.mp happart.apart).2.2 choice hchoice (place, new)
          (by simp) (by rw [heq])
        rw [← heq]
        exact hpair.resolve_right hnew'
      have hrun := h.pairs.foldl_exchangeAt hfilled hsquares hplace hnew hM
        (squareLoop_nodup squares) (fun p hp => mem_squareLoop.mp hp) fun _ _ => rfl
      rw [hfilled.length]
      exact hrun.congr fun p hp => (if_pos (mem_squareLoop.mpr hp)).symm

/-- The loop over the bag. -/
theorem Deltas.exact_foldl (hfilled : Filled metaValues squares n)
    (hchoices : Choices squares n choices) (happart : ChangesApart metaValues squares choices) :
    (choices.foldl (Deltas.write metaValues (LocalSearch.pairsIndex metaValues)) {}).Exact
      metaValues (LocalSearch.pairsIndex metaValues) squares n choices := by
  induction choices using List.reverseRecOn with
  | nil => exact Deltas.exact_nil hfilled
  | append_singleton choices choice ih =>
      have hfirst : Choices squares n choices :=
        ⟨hchoices.nodup.sublist ((List.sublist_append_left _ _).map _),
          fun c hc => hchoices.within c (List.mem_append_left _ hc)⟩
      have hfirstApart : ChangesApart metaValues squares choices :=
        ⟨fun ⟨c, hc, hchanged⟩ => happart.squares ⟨c, List.mem_append_left _ hc, hchanged⟩,
          happart.apart.sublist (List.sublist_append_left _ _)⟩
      rw [List.foldl_append]
      exact (ih hfirst hfirstApart).write hfilled hchoices happart

/-- What the lines of one kind add to `sum`. -/
theorem Lines.change_eq_excess {lines : Lines} {line : Nat → Finset Cell} {M N : Cell → Nat}
    {prev : Nat → Nat → Nat} (hwithin : lines.Within n)
    (hprev : ∀ i < n, ∀ s, prev i s = tally (line i) M s)
    (hlines : ∀ i < n, ∀ s, (tally (line i) M s : Int) + lines.deltaAt i s = tally (line i) N s) :
    lines.change n prev =
      ∑ i ∈ Finset.range n, ∑ s ∈ Finset.range n, (excess (tally (line i) N s) : Int) -
        ∑ i ∈ Finset.range n, ∑ s ∈ Finset.range n, (excess (tally (line i) M s) : Int) := by
  rw [Lines.change_eq hwithin, ← Finset.sum_sub_distrib]
  refine Finset.sum_congr rfl fun i hi => ?_
  rw [← Finset.sum_sub_distrib]
  refine Finset.sum_congr rfl fun s _ => ?_
  have hi := Finset.mem_range.mp hi
  rw [hprev i hi s]
  exact counterChange_eq (hlines i hi s)

/-- The final value of `sum` is the change of the conflicts. -/
theorem Deltas.Exact.total_eq (h : d.Exact metaValues pairsIndex squares n choices)
    (hfilled : Filled metaValues squares n) :
    d.total metaValues (rowsDistinct metaValues) (columnsDistinct metaValues) =
      (conflicts squares n (written (symbolAt metaValues) choices) : Int) -
        conflicts squares n (symbolAt metaValues) := by
  have hsquare : ∀ k ∈ Finset.range squares,
      (d.valuesRows k).change (metaValues.getD 0 []).length
          (fun row j => rowsDistinct metaValues (k, row, j)) +
        (d.valuesColumns k).change (metaValues.getD 0 []).length
          (fun column j => columnsDistinct metaValues (k, column, j)) =
      (∑ i ∈ Finset.range n, ∑ s ∈ Finset.range n,
          (excess (tally (rowCells n k i) (written (symbolAt metaValues) choices) s) : Int) -
        ∑ i ∈ Finset.range n, ∑ s ∈ Finset.range n,
          (excess (tally (rowCells n k i) (symbolAt metaValues) s) : Int)) +
      (∑ j ∈ Finset.range n, ∑ s ∈ Finset.range n,
          (excess (tally (columnCells n k j) (written (symbolAt metaValues) choices) s) : Int) -
        ∑ j ∈ Finset.range n, ∑ s ∈ Finset.range n,
          (excess (tally (columnCells n k j) (symbolAt metaValues) s) : Int)) := by
    intro k hk
    have hk := Finset.mem_range.mp hk
    rw [hfilled.getD_length (Nat.zero_lt_of_lt hk),
      Lines.change_eq_excess (h.rowsWithin k) (fun i hi s => rowsDistinct_eq hfilled hk hi s)
        (h.rows k),
      Lines.change_eq_excess (h.columnsWithin k) (fun j hj s => columnsDistinct_eq hfilled hk hj s)
        (h.columns k)]
  have hsum : d.sum = _ := h.pairs.sum
  rw [Deltas.total, hfilled.length, sum_map_range_eq, Finset.sum_congr rfl hsquare, hsum]
  unfold conflicts
  push_cast
  simp only [Finset.sum_add_distrib, Finset.sum_sub_distrib]
  ring

end Bag

end LatinSquares.LocalSearch
