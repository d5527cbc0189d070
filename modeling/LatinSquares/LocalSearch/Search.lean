/-
# The search of a round

The task of a worker in `solve`: it goes through its share of the bags, and for every bag through
the values of its meta variables, until `check_flipped` finds an improvement. The values of a bag
are counted by `nextArray` from the first ones on, and the loop goes on where
`satisfyPredicateForDomain` turns them down, so no values are left out.
-/

import LatinSquares.LocalSearch.Bags
import LatinSquares.LocalSearch.Commit
import LatinSquares.LocalSearch.Domain

namespace LatinSquares.LocalSearch

open LatinSquares.Math

namespace HillClimbingSolver

/-- The entries of `newMetaValues` for a bag with values. -/
def newMetaValues (s : HillClimbingSolver) (bag : List (Nat × Nat)) :
    Option (List (Nat × Nat × Nat × Nat)) := do
  let candidates ← bag.mapM s.candidate
  return candidates.map fun c => (c.1.place.1, c.1.place.2.1, c.1.place.2.2, c.2.2.toNat)

/-- The body of the loop over the values of a bag. -/
def tryValues (order : SwapOrder) (s : HillClimbingSolver) (bag : Combination)
    (permIndices : List Nat) : Option (Option Move) := do
  let accepted ← s.acceptsValues (bag.zip permIndices)
  if !accepted then return none
  let flipped ← s.flipped (bag.zip permIndices)
  let (returned, flipped) ← s.checkFlipped order flipped
  if !returned then return none
  let metaValues ← s.newMetaValues (bag.zip permIndices)
  return some { flipped, metaValues }

/-- `indices`: for every meta variable of a bag the indices of its values. -/
def valueIndices (s : HillClimbingSolver) (bag : Combination) : Option (List (List Nat)) :=
  bag.mapM fun i => (s.metaVariables[i]?).map fun m => List.range m.variables_.length

/-- The first improving move of a bag, with fuel for its values. -/
def searchBag (order : SwapOrder) (s : HillClimbingSolver) (fuel : Nat) (bag : Combination) :
    Option (Option Move) := do
  let indices ← s.valueIndices bag
  seek (fun permIndices => nextArray permIndices indices) (s.tryValues order bag) fuel
    (List.replicate indices.length 0)

end HillClimbingSolver

/-- The ranges from `start` to `end` that the workers get: `batch_size` bags each, and one more
as long as `remains` is not used up. -/
def deal {A : Type} (batch_size : Nat) : Nat → Nat → List A → List (List A)
  | 0, _, _ => []
  | threads + 1, remains, rest =>
      let size := if remains = 0 then batch_size else batch_size + 1
      rest.take size :: deal batch_size threads (remains - 1) (rest.drop size)

/-- The bags of every worker. -/
def batches {A : Type} (thread_count : Nat) (allPermutationIndices : List A) : List (List A) :=
  deal (allPermutationIndices.length / thread_count) thread_count
    (allPermutationIndices.length % thread_count) allPermutationIndices

section Values

variable {indices : List (List Nat)} {permIndices : List Nat} {i : Nat}

variable {s : HillClimbingSolver} {bag : Combination} {fuel : Nat} {order : SwapOrder}

end Values

section Batches

variable {A : Type}

/-- The ranges of the workers cover the list. -/
theorem flatten_deal (batch_size threads remains : Nat) (l : List A)
    (hlength : l.length = threads * batch_size + remains) (hremains : remains ≤ threads) :
    (deal batch_size threads remains l).flatten = l := by
  induction threads generalizing remains l with
  | zero =>
      obtain rfl := Nat.le_zero.mp hremains
      rw [Nat.zero_mul] at hlength
      rw [List.length_eq_zero_iff.mp hlength]
      rfl
  | succ threads ih =>
      rw [deal, List.flatten_cons, ih, List.take_append_drop]
      · rw [List.length_drop, hlength, Nat.succ_mul]
        split <;> omega
      · omega

theorem flatten_batches {thread_count : Nat} (hpos : 0 < thread_count) (l : List A) :
    (batches thread_count l).flatten = l := by
  apply flatten_deal
  · exact (Nat.div_add_mod l.length thread_count).symm
  · exact (Nat.mod_lt l.length hpos).le

end Batches

end LatinSquares.LocalSearch
