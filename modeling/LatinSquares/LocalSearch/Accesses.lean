/-
# The vector accesses of `Net::compute`

`compute` again, with every access to a vector checked: an access past the end fails, and so does
the run. The guards of the source keep most accesses in bounds, and the indices in
`literal_to_nodes` are those of nodes. Only the access to `literal_to_nodes` after a change is
not guarded, although the table is only as long as the largest argument requires.
-/

import LatinSquares.LocalSearch.Closure

namespace LatinSquares.LocalSearch

open LatinSquares.Math

namespace Checked

/-- The loop `while (i < flipped.size() && flipped[i] < number)`, for as many rounds as there are
entries left. -/
def advanceAt (flipped : List Nat) (number : Nat) : Nat → Nat → Option Nat
  | 0, i => some i
  | rounds + 1, i =>
      if i < flipped.length then do
        let entry ← flipped[i]?
        if entry < number then advanceAt flipped number rounds (i + 1) else some i
      else some i

/-- `i != flipped.size() && flipped[i] == number`. -/
def isFlippedAt (flipped : List Nat) (i number : Nat) : Option Bool :=
  if i ≠ flipped.length then do
    let entry ← flipped[i]?
    return entry == number
  else some false

/-- `bool value = units[number] ^ isFlipped`. -/
def valueAt (units : List UInt8) (number : Nat) (isFlipped : Bool) : Option Bool := do
  let unit ← units[number]?
  return unit ^^^ isFlipped.toUInt8 != 0

/-- `AndIffNode::propagate`. -/
def andScan (units : List UInt8) (flipped : List Nat) : List Literal → Nat → Option Bool
  | [], _ => some true
  | arg :: args, i => do
      let i ← advanceAt flipped arg.number (flipped.length - i) i
      let isFlipped ← isFlippedAt flipped i arg.number
      let value ← valueAt units arg.number isFlipped
      if value != arg.value then some false else andScan units flipped args i

/-- `OrIffNode::propagate`. -/
def orScan (units : List UInt8) (flipped : List Nat) : List Literal → Nat → Option Bool
  | [], _ => some false
  | arg :: args, i => do
      let i ← advanceAt flipped arg.number (flipped.length - i) i
      let isFlipped ← isFlippedAt flipped i arg.number
      let value ← valueAt units arg.number isFlipped
      if value == arg.value then some true else orScan units flipped args i

/-- The inner loop of `OrAndNode::propagate`. -/
def allScan (units : List UInt8) (flipped : List Nat) : List Literal → Option Bool
  | [] => some true
  | arg :: args => do
      let isFlipped ← isFlippedAt flipped 0 arg.number
      let value ← valueAt units arg.number isFlipped
      if value != arg.value then some false else allScan units flipped args

/-- `OrAndNode::propagate`. -/
def orAndScan (units : List UInt8) (flipped : List Nat) : List (List Literal) → Option Bool
  | [] => some false
  | args :: orAndArgs => do
      let flag ← allScan units flipped args
      if flag then some true else orAndScan units flipped orAndArgs

/-- `propagate`. -/
def propagate (units : List UInt8) (flipped : List Nat) : Node → Option Bool
  | .value _ b => some b
  | .andIff _ args => andScan units flipped args 0
  | .orIff _ args => orScan units flipped args 0
  | .orAnd _ orAndArgs => orAndScan units flipped orAndArgs

/-- The loop that moves the entry at an index forward. -/
def settle (order : SwapOrder) : Nat → List Nat → Option (List Nat)
  | 0, flipped => some flipped
  | last + 1, flipped => do
      let entry ← flipped[last + 1]?
      let before ← flipped[last]?
      if entry < before then settle order last (order.swap flipped last) else some flipped

/-- `toCompute[finalized[k]->variable] = true`. -/
def mark (net : Net) (toCompute : List Bool) (k : Nat) : Option (List Bool) := do
  let node ← net.finalized[k]?
  if node.var < toCompute.length then some (toCompute.set node.var true) else none

/-- `for (uint32_t k: literal_to_nodes[number])`. -/
def markReaders (net : Net) (toCompute : List Bool) (number : Nat) : Option (List Bool) := do
  let indices ← net.literalToNodes[number]?
  indices.foldlM (mark net) toCompute

/-- The first loop of `compute`. -/
def initialMarks (net : Net) (flipped : List Nat) (size : Nat) : Option (List Bool) :=
  flipped.foldlM (fun toCompute number =>
    if net.literalToNodes.length ≤ number then some toCompute
    else markReaders net toCompute number) (List.replicate size false)

/-- One round of the second loop. -/
def computeNode (order : SwapOrder) (net : Net) (units : List UInt8) (state : List Nat × List Bool)
    (node : Node) : Option (List Nat × List Bool) := do
  let marked ← state.2[node.var]?
  if marked then
    let current ← units[node.var]?
    let value ← propagate units state.1 node
    if value.toUInt8 != current then
      let flipped ← settle order state.1.length (state.1 ++ [node.var])
      let toCompute ← markReaders net state.2 node.var
      return (flipped, toCompute)
    else return state
  else return state

/-- `compute(units, flipped)`. -/
def compute (order : SwapOrder) (net : Net) (units : List UInt8) (flipped : List Nat) :
    Option (List Nat) := do
  let toCompute ← initialMarks net flipped units.length
  let state ← net.finalized.foldlM (computeNode order net units) (flipped, toCompute)
  return state.1

end Checked

/-- The values of a vector. -/
def unitsAt (units : List UInt8) : Units := fun number => units.getD number 0

section Rel

variable {A B C D : Type} {R : A → B → Prop} {S : C → D → Prop} {a : Option A} {b : Option B}

theorem rel_bind {f : A → Option C} {g : B → Option D} (h : Option.Rel R a b)
    (hfg : ∀ x y, R x y → Option.Rel S (f x) (g y)) : Option.Rel S (a.bind f) (b.bind g) := by
  cases h with
  | some hxy => exact hfg _ _ hxy
  | none => exact .none

theorem rel_isSome (h : Option.Rel R a b) : a.isSome = b.isSome := by
  cases h <;> rfl

end Rel

section Scans

variable {units : List UInt8} {flipped : List Nat} {args : List Literal} {number i : Nat}

theorem advanceAt_eq (number rounds : Nat) (hi : i + rounds = flipped.length) :
    ∃ j, Checked.advanceAt flipped number rounds i = some j ∧ j ≤ flipped.length ∧
      flipped.drop j = advance (flipped.drop i) number := by
  induction rounds generalizing i with
  | zero =>
      have hdrop : flipped.drop i = [] := List.drop_eq_nil_of_le (by omega)
      exact ⟨i, rfl, by omega, by rw [hdrop]; rfl⟩
  | succ rounds ih =>
      have hlt : i < flipped.length := by omega
      have hcons : flipped.drop i = flipped[i] :: flipped.drop (i + 1) :=
        List.drop_eq_getElem_cons hlt
      rw [Checked.advanceAt, if_pos hlt, List.getElem?_eq_getElem hlt]
      by_cases hentry : flipped[i] < number
      · obtain ⟨j, hj, hle, hdrop⟩ := ih (i := i + 1) (by omega)
        refine ⟨j, by simpa [hentry] using hj, hle, ?_⟩
        rw [hdrop, hcons, advance, advance, List.dropWhile_cons_of_pos (by simpa using hentry)]
      · refine ⟨i, by simp [hentry], hlt.le, ?_⟩
        rw [hcons, advance, List.dropWhile_cons_of_neg (by simpa using hentry)]

theorem isFlippedAt_eq (hi : i ≤ flipped.length) :
    Checked.isFlippedAt flipped i number = some (atCursor (flipped.drop i) number) := by
  unfold Checked.isFlippedAt atCursor
  rw [List.head?_drop]
  by_cases hend : i = flipped.length
  · simp [hend]
  · rw [if_pos hend, List.getElem?_eq_getElem (by omega)]
    simp

theorem valueAt_eq (hnumber : number < units.length) (isFlipped : Bool) :
    Checked.valueAt units number isFlipped =
      some (flippedValue (unitsAt units) number isFlipped) := by
  unfold Checked.valueAt flippedValue unitsAt
  rw [List.getD_eq_getElem?_getD, List.getElem?_eq_getElem hnumber]
  rfl

theorem andScan_checked (hi : i ≤ flipped.length)
    (hargs : ∀ arg ∈ args, arg.number < units.length) :
    Checked.andScan units flipped args i =
      some (Node.andScan (unitsAt units) args (flipped.drop i)) := by
  induction args generalizing i with
  | nil => rfl
  | cons arg args ih =>
      obtain ⟨hhead, htail⟩ := List.forall_mem_cons.mp hargs
      obtain ⟨j, hj, hle, hdrop⟩ := advanceAt_eq arg.number (flipped.length - i)
        (Nat.add_sub_of_le hi)
      rw [Checked.andScan, hj, Node.andScan, ← hdrop]
      simp only [Option.bind_eq_bind, Option.bind_some, isFlippedAt_eq hle, valueAt_eq hhead,
        ih hle htail]
      split <;> rfl

theorem orScan_checked (hi : i ≤ flipped.length) (hargs : ∀ arg ∈ args, arg.number < units.length) :
    Checked.orScan units flipped args i =
      some (Node.orScan (unitsAt units) args (flipped.drop i)) := by
  induction args generalizing i with
  | nil => rfl
  | cons arg args ih =>
      obtain ⟨hhead, htail⟩ := List.forall_mem_cons.mp hargs
      obtain ⟨j, hj, hle, hdrop⟩ := advanceAt_eq arg.number (flipped.length - i)
        (Nat.add_sub_of_le hi)
      rw [Checked.orScan, hj, Node.orScan, ← hdrop]
      simp only [Option.bind_eq_bind, Option.bind_some, isFlippedAt_eq hle, valueAt_eq hhead,
        ih hle htail]
      split <;> rfl

theorem allScan_checked (hargs : ∀ arg ∈ args, arg.number < units.length) :
    Checked.allScan units flipped args = some (args.all fun arg =>
      flippedValue (unitsAt units) arg.number (atCursor flipped arg.number) == arg.value) := by
  induction args with
  | nil => rfl
  | cons arg args ih =>
      obtain ⟨hhead, htail⟩ := List.forall_mem_cons.mp hargs
      have hflipped : Checked.isFlippedAt flipped 0 arg.number =
          some (atCursor flipped arg.number) := isFlippedAt_eq (Nat.zero_le _)
      rw [Checked.allScan, hflipped]
      simp only [Option.bind_eq_bind, Option.bind_some, valueAt_eq hhead, ih htail, List.all_cons]
      cases hvalue : flippedValue (unitsAt units) arg.number (atCursor flipped arg.number) ==
        arg.value <;> simp [bne, hvalue]

theorem orAndScan_checked {orAndArgs : List (List Literal)}
    (hargs : ∀ args ∈ orAndArgs, ∀ arg ∈ args, arg.number < units.length) :
    Checked.orAndScan units flipped orAndArgs =
      some (Node.orAndScan (unitsAt units) orAndArgs flipped) := by
  induction orAndArgs with
  | nil => rfl
  | cons args orAndArgs ih =>
      obtain ⟨hhead, htail⟩ := List.forall_mem_cons.mp hargs
      rw [Checked.orAndScan, allScan_checked hhead, Node.orAndScan, List.any_cons]
      simp only [Option.bind_eq_bind, Option.bind_some, ih htail, Node.orAndScan]
      split <;> simp_all

/-- With values for all arguments, no access of `propagate` fails. -/
theorem propagate_checked (node : Node) (hargs : ∀ arg ∈ node.args, arg.number < units.length) :
    Checked.propagate units flipped node = some (node.propagate (unitsAt units) flipped) := by
  cases node with
  | value var b => rfl
  | andIff var args => exact andScan_checked (Nat.zero_le _) hargs
  | orIff var args => exact orScan_checked (Nat.zero_le _) hargs
  | orAnd var orAndArgs =>
      exact orAndScan_checked fun args hlist arg harg =>
        hargs arg (List.mem_flatten_of_mem hlist harg)

/-- The loop that moves an entry stays inside the list. -/
theorem settle_checked (order : SwapOrder) (last : Nat) {l : List Nat} (hlast : last < l.length) :
    Checked.settle order last l = some (order.settle last l) := by
  induction last generalizing l with
  | zero => rfl
  | succ last ih =>
      have hlength : (order.swap l last).length = l.length := by
        cases order <;> simp [SwapOrder.swap]
      rw [Checked.settle, SwapOrder.settle, List.getElem?_eq_getElem hlast,
        List.getElem?_eq_getElem (Nat.lt_of_succ_lt hlast), List.getD_eq_getElem?_getD,
        List.getD_eq_getElem?_getD, List.getElem?_eq_getElem hlast,
        List.getElem?_eq_getElem (Nat.lt_of_succ_lt hlast)]
      simp only [Option.bind_eq_bind, Option.bind_some, Option.getD_some,
        ih (hlength ▸ Nat.lt_of_succ_lt hlast)]
      split <;> rfl

theorem settle_push (order : SwapOrder) (flipped : List Nat) (variable_ : Nat) :
    Checked.settle order flipped.length (flipped ++ [variable_]) =
      some (order.enter flipped variable_) :=
  settle_checked order flipped.length (by simp)

end Scans

/-- The vectors fit the net: there are values for all variables, and `literal_to_nodes` has
indices of nodes. -/
structure Net.Fits (net : Net) (size : Nat) : Prop where
  vars : ∀ node ∈ net.finalized, node.var < size
  args : ∀ node ∈ net.finalized, ∀ arg ∈ node.args, arg.number < size
  indices : ∀ indices ∈ net.literalToNodes, ∀ k ∈ indices, k < net.finalized.length

/-- `toCompute` marks exactly the given variables. -/
structure MarkVector (size : Nat) (marks : List Nat) (toCompute : List Bool) : Prop where
  length : toCompute.length = size
  marked : ∀ v < size, toCompute[v]? = some (decide (v ∈ marks))

section Marking

variable {net : Net} {size number k : Nat} {marks indices : List Nat} {toCompute : List Bool}

theorem marks_replicate (size : Nat) : MarkVector size [] (List.replicate size false) where
  length := List.length_replicate
  marked v hv := by simp [hv]

theorem mark_checked (hnet : net.Fits size) (hmarks : MarkVector size marks toCompute)
    (hk : k < net.finalized.length) :
    ∃ toCompute', Checked.mark net toCompute k = some toCompute' ∧
      MarkVector size (marks ++ net.nodeVars [k]) toCompute' := by
  have hnode : net.finalized[k].var < toCompute.length := by
    rw [hmarks.length]
    exact hnet.vars _ (List.getElem_mem hk)
  refine ⟨toCompute.set net.finalized[k].var true, ?_, ?_, fun v hv => ?_⟩
  · simp [Checked.mark, hk, hnode]
  · rw [List.length_set, hmarks.length]
  · have hvars : net.nodeVars [k] = [net.finalized[k].var] := by simp [Net.nodeVars, hk]
    rw [hvars, List.getElem?_set]
    by_cases heq : net.finalized[k].var = v
    · simp [heq, hmarks.length, hv]
    · simp [heq, hmarks.marked v hv, Ne.symm heq]

theorem foldlM_mark_checked (hnet : net.Fits size) (hmarks : MarkVector size marks toCompute)
    (hindices : ∀ k ∈ indices, k < net.finalized.length) :
    ∃ toCompute', indices.foldlM (Checked.mark net) toCompute = some toCompute' ∧
      MarkVector size (marks ++ net.nodeVars indices) toCompute' := by
  induction indices generalizing marks toCompute with
  | nil => exact ⟨toCompute, rfl, by simpa [Net.nodeVars] using hmarks⟩
  | cons k indices ih =>
      obtain ⟨hhead, htail⟩ := List.forall_mem_cons.mp hindices
      obtain ⟨next, hnext, hmarks'⟩ := mark_checked hnet hmarks hhead
      obtain ⟨last, hlast, hmarks''⟩ := ih hmarks' htail
      refine ⟨last, by rw [List.foldlM_cons, hnext]; exact hlast, ?_⟩
      have hvars : net.nodeVars (k :: indices) = net.nodeVars [k] ++ net.nodeVars indices := by
        rw [Net.nodeVars, Net.nodeVars, Net.nodeVars, ← List.filterMap_append,
          List.singleton_append]
      rwa [hvars, ← List.append_assoc]

/-- The readers of a variable are marked if the variable is in the table. -/
theorem markReaders_checked (hnet : net.Fits size) (hmarks : MarkVector size marks toCompute)
    (hnumber : number < net.literalToNodes.length) :
    ∃ toCompute', Checked.markReaders net toCompute number = some toCompute' ∧
      MarkVector size (marks ++ net.nodeVars net.literalToNodes[number]) toCompute' := by
  obtain ⟨last, hlast, hmarks'⟩ := foldlM_mark_checked hnet hmarks
    (hnet.indices _ (List.getElem_mem hnumber))
  refine ⟨last, ?_, hmarks'⟩
  rw [Checked.markReaders, List.getElem?_eq_getElem hnumber]
  exact hlast

/-- The first loop, with marks set before. -/
theorem foldlM_markReaders_checked (hnet : net.Fits size) (hmarks : MarkVector size marks toCompute)
    (flipped : List Nat) :
    ∃ toCompute', flipped.foldlM (fun toCompute number =>
        if net.literalToNodes.length ≤ number then some toCompute
        else Checked.markReaders net toCompute number) toCompute = some toCompute' ∧
      MarkVector size (marks ++ net.initialMarks flipped) toCompute' := by
  induction flipped generalizing marks toCompute with
  | nil => exact ⟨toCompute, rfl, by simpa [Net.initialMarks] using hmarks⟩
  | cons number flipped ih =>
      have hinitial : net.initialMarks (number :: flipped) =
          net.nodeVars (net.literalToNodes.getD number []) ++ net.initialMarks flipped := rfl
      rw [List.foldlM_cons, hinitial, ← List.append_assoc]
      by_cases hnumber : net.literalToNodes.length ≤ number
      · rw [if_pos hnumber, List.getD_eq_getElem?_getD, List.getElem?_eq_none hnumber]
        obtain ⟨last, hlast, hmarks'⟩ := ih hmarks
        exact ⟨last, hlast, by simpa [Net.nodeVars] using hmarks'⟩
      · have hlt : number < net.literalToNodes.length := Nat.lt_of_not_le hnumber
        obtain ⟨next, hnext, hmarks'⟩ := markReaders_checked hnet hmarks hlt
        obtain ⟨last, hlast, hmarks''⟩ := ih hmarks'
        rw [if_neg hnumber, hnext, List.getD_eq_getElem?_getD, List.getElem?_eq_getElem hlt]
        exact ⟨last, hlast, hmarks''⟩

/-- The first loop is in bounds. -/
theorem initialMarks_checked (hnet : net.Fits size) (flipped : List Nat) :
    ∃ toCompute, Checked.initialMarks net flipped size = some toCompute ∧
      MarkVector size (net.initialMarks flipped) toCompute :=
  foldlM_markReaders_checked hnet (marks_replicate size) flipped

end Marking

section Rounds

variable {order : SwapOrder} {net : Net} {units : List UInt8} {node : Node} {nodes : List Node}

/-- The same list `flipped` and the same marks. -/
def SameState (size : Nat) (state : List Nat × List Bool) (state' : List Nat × List Nat) : Prop :=
  state.1 = state'.1 ∧ MarkVector size state'.2 state.2

variable {state : List Nat × List Bool} {state' : List Nat × List Nat}

/-- A round fails exactly if the variable that changes is not in the table. -/
theorem computeNode_checked (hnet : net.Fits units.length) (hnode : node ∈ net.finalized)
    (hstate : SameState units.length state state') :
    Option.Rel (SameState units.length) (Checked.computeNode order net units state node)
      (net.computeNode order (unitsAt units) state' node) := by
  obtain ⟨flipped, toCompute⟩ := state
  obtain ⟨flipped', marks⟩ := state'
  obtain ⟨rfl, hmarks⟩ := hstate
  have hvar := hnet.vars node hnode
  have hunit : units[node.var]? = some (unitsAt units node.var) := by
    rw [unitsAt, List.getD_eq_getElem?_getD, List.getElem?_eq_getElem hvar]
    rfl
  have hmarked : toCompute[node.var]? = some (decide (node.var ∈ marks)) := hmarks.marked _ hvar
  unfold Checked.computeNode Net.computeNode
  simp only [hmarked, hunit, propagate_checked node (hnet.args node hnode), settle_push,
    Option.bind_eq_bind, Option.bind_some, decide_eq_true_eq, bne_iff_ne]
  by_cases hmark : node.var ∈ marks
  · by_cases hchange : (node.propagate (unitsAt units) flipped).toUInt8 ≠ unitsAt units node.var
    · have hchanges : Net.Changes (unitsAt units) (flipped, marks) node := ⟨hmark, hchange⟩
      rw [if_pos hmark, if_pos hchange, if_pos hchanges]
      by_cases htable : node.var < net.literalToNodes.length
      · obtain ⟨next, hnext, hmarks'⟩ := markReaders_checked hnet hmarks htable
        rw [hnext, List.getElem?_eq_getElem htable]
        exact .some ⟨rfl, hmarks'⟩
      · have hnone : net.literalToNodes[node.var]? = none :=
          List.getElem?_eq_none (Nat.le_of_not_lt htable)
        rw [Checked.markReaders, hnone]
        exact .none
    · have hchanges : ¬ Net.Changes (unitsAt units) (flipped, marks) node := fun h => hchange h.2
      rw [if_pos hmark, if_neg hchange, if_neg hchanges]
      exact .some ⟨rfl, hmarks⟩
  · have hchanges : ¬ Net.Changes (unitsAt units) (flipped, marks) node := fun h => hmark h.1
    rw [if_neg hmark, if_neg hchanges]
    exact .some ⟨rfl, hmarks⟩

theorem foldlM_computeNode_checked (order : SwapOrder) (hnet : net.Fits units.length)
    (hnodes : nodes ⊆ net.finalized)
    (hstate : SameState units.length state state') :
    Option.Rel (SameState units.length)
      (nodes.foldlM (Checked.computeNode order net units) state)
      (nodes.foldlM (net.computeNode order (unitsAt units)) state') := by
  induction nodes generalizing state state' with
  | nil => exact .some hstate
  | cons node nodes ih =>
      obtain ⟨hnode, hrest⟩ := List.cons_subset.mp hnodes
      rw [List.foldlM_cons, List.foldlM_cons]
      exact rel_bind (computeNode_checked hnet hnode hstate) fun _ _ hnext => ih hrest hnext

/-- The checked run returns exactly if the access to `literal_to_nodes` after a change never
fails. -/
theorem isSome_compute_eq (hnet : net.Fits units.length) (flipped : List Nat) :
    (Checked.compute order net units flipped).isSome =
      (net.computeUpTo order (unitsAt units) flipped net.finalized).isSome := by
  obtain ⟨toCompute, hinitial, hmarks⟩ := initialMarks_checked hnet flipped
  have hrel := foldlM_computeNode_checked order hnet (List.Subset.refl _)
    (⟨rfl, hmarks⟩ :
      SameState units.length (flipped, toCompute) (flipped, net.initialMarks flipped))
  rw [Net.computeUpTo, ← rel_isSome hrel, Checked.compute, hinitial]
  simp only [Option.bind_eq_bind, Option.bind_some]
  cases net.finalized.foldlM (Checked.computeNode order net units) (flipped, toCompute) <;> rfl

end Rounds

section Table

variable {order : SwapOrder} {net : Net} {units : Units} {flipped : List Nat} {nodes : List Node}

/-- A run returns exactly if every variable that changes is in the table. -/
theorem isSome_computeUpTo_iff : (net.computeUpTo order units flipped nodes).isSome ↔
    ∀ pre node, pre ++ [node] <+: nodes → ∀ state,
      net.computeUpTo order units flipped pre = some state → Net.Changes units state node →
        node.var < net.literalToNodes.length := by
  constructor
  · intro h pre node hpre state hstate hchanges
    have hround := Net.isSome_computeUpTo_of_isPrefix hpre h
    rw [Net.computeUpTo_append_singleton, hstate, Option.bind_some, Net.computeNode,
      if_pos hchanges] at hround
    by_contra htable
    rw [List.getElem?_eq_none (Nat.le_of_not_lt htable)] at hround
    cases hround
  · intro h
    induction nodes using List.reverseRecOn with
    | nil => rfl
    | append_singleton nodes last ih =>
        obtain ⟨state, hstate⟩ := Option.isSome_iff_exists.mp (ih fun pre node hpre =>
          h pre node (hpre.trans (List.prefix_append nodes [last])))
        rw [Net.computeUpTo_append_singleton, hstate, Option.bind_some, Net.computeNode]
        split
        · next hchanges =>
            have htable := h nodes last (List.prefix_refl _) state hstate hchanges
            rw [List.getElem?_eq_getElem htable]
            rfl
        · rfl

end Table

end LatinSquares.LocalSearch
