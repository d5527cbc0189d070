/-
# The computational net of the local search

`net/Node.cpp` and `net/Net.cpp`. A node computes its variable from its arguments. The
solver keeps an assignment `units` and tries a list `flipped` of variables to be
inverted: `propagate` evaluates a node on the inverted values, and `compute` extends the
list by the node variables that change with it.

Arrays indexed by variable numbers are functions on these numbers. A read past the end
of `variable_to_node` or `literal_to_nodes`, which nothing guards against, is a failure.

`compute` appends a changed variable and moves it into its place by swaps whose second
argument decrements the index that the first one reads. The language leaves open which
argument comes first. If the first one does, every swap moves the new entry one place
forward. If the second one does, both arguments are the same entry, and the new variable
stays at the end. The order is a parameter of all that calls `compute`.
-/

import LatinSquares.Math.Cursor
import LatinSquares.Math.Recompute

namespace LatinSquares.LocalSearch

open LatinSquares.Math

/-- A variable and the value that makes the literal true. -/
structure Literal where
  number : Nat
  value : Bool
  deriving DecidableEq, Repr

/-- `Literal(int dimacsValue)`. -/
def Literal.ofDimacs (dimacsValue : Int) : Literal where
  number := dimacsValue.natAbs
  value := 0 < dimacsValue

/-- An assignment of the solver: `0` and `1` are the truth values, `2` is unknown. -/
abbrev Units := Nat → UInt8

/-- A total assignment as the solver stores it. -/
def unitsOf (α : Nat → Bool) : Units := fun number => (α number).toUInt8

/-- `bool value = units[number] ^ isFlipped`. -/
def flippedValue (units : Units) (number : Nat) (isFlipped : Bool) : Bool :=
  units number ^^^ isFlipped.toUInt8 != 0

/-- The classes derived from `Node`. -/
inductive Node where
  | value (var : Nat) (value : Bool)
  | andIff (var : Nat) (args : List Literal)
  | orIff (var : Nat) (args : List Literal)
  | orAnd (var : Nat) (orAndArgs : List (List Literal))
  deriving DecidableEq, Repr

namespace Node

/-- The variable a node computes. -/
def var : Node → Nat
  | value var _ => var
  | andIff var _ => var
  | orIff var _ => var
  | orAnd var _ => var

/-- `args`; for an `OrAndNode` its constructor joins the lists. -/
def args : Node → List Literal
  | value _ _ => []
  | andIff _ args => args
  | orIff _ args => args
  | orAnd _ orAndArgs => orAndArgs.flatten

/-- The loop of `AndIffNode::propagate`; the cursor `i` is given by the entries of
`flipped` from `i` on. -/
def andScan (units : Units) : List Literal → List Nat → Bool
  | [], _ => true
  | arg :: args, rest =>
      let rest := advance rest arg.number
      if flippedValue units arg.number (atCursor rest arg.number) != arg.value then false
      else andScan units args rest

/-- The loop of `OrIffNode::propagate`. -/
def orScan (units : Units) : List Literal → List Nat → Bool
  | [], _ => false
  | arg :: args, rest =>
      let rest := advance rest arg.number
      if flippedValue units arg.number (atCursor rest arg.number) == arg.value then true
      else orScan units args rest

/-- The loops of `OrAndNode::propagate`. Here `i` stays at the first entry of `flipped`. -/
def orAndScan (units : Units) (orAndArgs : List (List Literal)) (flipped : List Nat) : Bool :=
  orAndArgs.any fun args => args.all fun arg =>
    flippedValue units arg.number (atCursor flipped arg.number) == arg.value

/-- `propagate`. -/
def propagate (units : Units) (flipped : List Nat) : Node → Bool
  | value _ b => b
  | andIff _ args => andScan units args flipped
  | orIff _ args => orScan units args flipped
  | orAnd _ orAndArgs => orAndScan units orAndArgs flipped

end Node

/-- Which argument of `std::swap(flipped[last], flipped[--last])` is evaluated first. -/
inductive SwapOrder where
  | leftFirst
  | rightFirst
  deriving DecidableEq, Repr

namespace SwapOrder

/-- `std::swap(flipped[last], flipped[--last])`, with the decremented index. -/
def swap (order : SwapOrder) (flipped : List Nat) (last : Nat) : List Nat :=
  match order with
  | leftFirst => (flipped.set (last + 1) (flipped.getD last 0)).set last (flipped.getD (last + 1) 0)
  | rightFirst => flipped

/-- The loop that moves the entry at an index forward. -/
def settle (order : SwapOrder) : Nat → List Nat → List Nat
  | 0, flipped => flipped
  | last + 1, flipped =>
      if flipped.getD (last + 1) 0 < flipped.getD last 0 then
        settle order last (order.swap flipped last)
      else flipped

/-- `flipped.push_back(variable)` and the loop after it. -/
def enter (order : SwapOrder) (flipped : List Nat) (variable_ : Nat) : List Nat :=
  order.settle flipped.length (flipped ++ [variable_])

end SwapOrder

/-- A net as `finalize` leaves it. -/
structure Net where
  finalized : List Node
  literalToNodes : List (List Nat)
  deriving Repr

namespace Net

/-- The length of `variable_to_node` once `parse_node` has read `nodes`. -/
def variableToNodeSize (nodes : List Node) : Nat := (nodes.map fun node => node.var + 1).foldl max 0

/-- The node `variable_to_node` leads to; a later node of a variable replaces an earlier. -/
def nodeOf (nodes : List Node) (k : Nat) : Option Node :=
  nodes.reverse.find? fun node => node.var == k

/-- The depth `finalize(i)` finds for an argument: `0` if no node computes it. -/
def argDepth (nodes : List Node) (depth : Node → Option Nat) (k : Nat) : Option Nat :=
  if variableToNodeSize nodes ≤ k then none
  else match nodeOf nodes k with
    | none => some 0
    | some node => depth node

/-- `finalize(i)`: the depth of a node, with fuel for the nested calls. The marks `-1` of
the source only keep depths that are known already. -/
def depth (nodes : List Node) : Nat → Node → Option Nat
  | 0, _ => none
  | _ + 1, .value _ _ => some 0
  | fuel + 1, node => do
      let maxDepth ← node.args.foldlM (fun maxDepth arg => do
        let d ← argDepth nodes (depth nodes fuel) arg.number
        return max maxDepth d) 0
      return maxDepth + 1

/-- `literal_to_nodes[number].push_back(i)`, after the table is made long enough. -/
def addNodeIndex (table : List (List Nat)) (number i : Nat) : List (List Nat) :=
  (table ++ List.replicate (number + 1 - table.length) []).modify number (· ++ [i])

/-- `literal_to_nodes`: the indices of the nodes that have a variable as an argument. -/
def indexNodes (finalized : List Node) : List (List Nat) :=
  finalized.zipIdx.foldl (fun table p =>
    p.1.args.foldl (fun table arg => addNodeIndex table arg.number p.2) table) []

/-- `finalize()`. The order `std::sort` gives to nodes of one depth is left open. -/
structure Finalizes (nodes : List Node) (net : Net) : Prop where
  perm : net.finalized.Perm nodes
  sorted : ∃ depthOf : Node → Nat,
    (∀ node ∈ nodes, ∃ fuel, depth nodes fuel node = some (depthOf node)) ∧
    net.finalized.Pairwise fun a b => depthOf a ≤ depthOf b
  table : net.literalToNodes = indexNodes net.finalized

/-- The variables of the nodes with the given indices. -/
def nodeVars (net : Net) (indices : List Nat) : List Nat :=
  indices.filterMap fun k => (net.finalized[k]?).map Node.var

/-- The first loop of `compute`: the marks set for the variables to be inverted. -/
def initialMarks (net : Net) (flipped : List Nat) : List Nat :=
  flipped.flatMap fun number => net.nodeVars (net.literalToNodes.getD number [])

/-- The test for a node in the second loop of `compute`. The state holds `flipped` and the
variables marked in `toCompute`. -/
def Changes (units : Units) (state : List Nat × List Nat) (node : Node) : Prop :=
  node.var ∈ state.2 ∧ (node.propagate units state.1).toUInt8 ≠ units node.var

instance (units : Units) (state : List Nat × List Nat) (node : Node) :
    Decidable (Changes units state node) :=
  inferInstanceAs (Decidable (_ ∧ _))

/-- One round of the second loop of `compute`. -/
def computeNode (order : SwapOrder) (net : Net) (units : Units) (state : List Nat × List Nat)
    (node : Node) : Option (List Nat × List Nat) :=
  if Changes units state node then do
    let indices ← net.literalToNodes[node.var]?
    return (order.enter state.1 node.var, state.2 ++ net.nodeVars indices)
  else some state

/-- The second loop of `compute` for the first nodes of the net. -/
def computeUpTo (order : SwapOrder) (net : Net) (units : Units) (flipped : List Nat)
    (nodes : List Node) : Option (List Nat × List Nat) :=
  nodes.foldlM (net.computeNode order units) (flipped, net.initialMarks flipped)

/-- `compute(units, flipped)`. -/
def compute (order : SwapOrder) (net : Net) (units : Units) (flipped : List Nat) :
    Option (List Nat) := do
  let state ← net.computeUpTo order units flipped net.finalized
  return state.1

/-- `compute(units)`: the nodes without a value are evaluated in turn. -/
def evaluate (net : Net) (units : Units) : Units :=
  net.finalized.foldl (fun units node =>
    if units node.var == 2 then Function.update units node.var (node.propagate units []).toUInt8
    else units) units

end Net

end LatinSquares.LocalSearch
