/-
# Shared building blocks of the encoders

`common.kt`: one-hot constraints over lists of literals, the sequential counter
`greaterOrEqual`, `log2` and the supply of fresh variables. The top-level
`varCounter` and the top-level `net` of the source are the state of `Gen`;
failure stands for an exception.

A list index the encoders keep in range by their own loop bounds is read with a
default here; an index or a cast that parameters can make fail is a failing step.
-/

import LatinSquares.Generator.Expression
import LatinSquares.Math.Program
import Mathlib.Algebra.Group.Nat.Defs

namespace LatinSquares.Generator

open Expression (and)

/-- The nodes of the computational net. -/
inductive Node where
  | value (var : Nat) (value : Bool)
  | andIff (var : Nat) (args : List Literal)
  | orIff (var : Nat) (args : List Literal)
  | orAnd (var : Nat) (args : List (List Literal))
  deriving DecidableEq, Repr

/-- The variable a node computes. -/
def Node.var : Node → Nat
  | value var _ => var
  | andIff var _ => var
  | orIff var _ => var
  | orAnd var _ => var

/-- The global state: the last variable number given out and the net so far. -/
structure GenState where
  varCounter : Nat := 0
  nodes : List Node := []
  deriving Repr

/-- A step of the generator. -/
abbrev Gen := StateT GenState Option

/-- `newVariable`. -/
def newVariable : Gen Nat := do
  let s ← get
  set { s with varCounter := s.varCounter + 1 }
  return s.varCounter + 1

/-- `net.add`. -/
def addNode (node : Node) : Gen Unit :=
  modify fun s => { s with nodes := s.nodes ++ [node] }

/-- The range `a until b`. -/
def rangeUntil (a b : Nat) : List Nat := List.range' a (b - a)

/-- `transpose`; the source throws on an empty list. -/
def transpose {α : Type} [Inhabited α] : List (List α) → List (List α)
  | [] => []
  | row :: rows => (List.range row.length).map fun i =>
      (row :: rows).map fun r => r.getD i default

/-- `a or b` for literals. -/
def orLiterals (ls : List Literal) : Expression :=
  .ofClause (Clause.or (ls.map .literal))

def codeDistinct (vars : List Literal) (isImportant : Bool := true) : Expression :=
  (and ((List.range vars.length).flatMap fun i =>
    (rangeUntil (i + 1) vars.length).map fun j =>
      orLiterals [(vars.getD i default).not, (vars.getD j default).not])).markArgs
        isImportant

def codeAtLeastOne (vars : List Literal) (isImportant : Bool := true) : Expression :=
  (orLiterals vars).mark isImportant

def codeSufficient (vars : List (List Literal)) (isImportant : Bool := true) :
    Expression :=
  and (vars.map fun it => and [codeAtLeastOne it isImportant, codeDistinct it isImportant])

/-- No number is repeated in a line. -/
def codeLine (vars : List (List Literal)) : Expression :=
  and [codeSufficient vars false, codeSufficient (transpose vars)]

/-- `VariabledExpression`: a formula and the expressions that tighten it. -/
structure VariabledExpression where
  expr : Expression
  vars : List Expression := []
  deriving Repr

/-- The first row of the counter: `svars[0][0]` counts `vars[0]`. -/
def greaterOrEqualHead (v : Nat → Nat) (s : Nat → Nat → Nat) (k : Nat) :
    Gen Expression := do
  let headNots ← (rangeUntil 1 k).mapM fun it => do
    addNode (.value (s 0 it) false)
    return Expression.literal (.notVar (s 0 it))
  let head := (and [orLiterals [.var (v 0), .var (s 0 0)], and headNots]).markArgs false
  addNode (.andIff (s 0 0) [.notVar (v 0)])
  return head

/-- Row `i` of the counter, and the clause that stops it from reaching `k + 1`. -/
def greaterOrEqualMiddle (v : Nat → Nat) (s : Nat → Nat → Nat) (k i : Nat) :
    Gen Expression := do
  let first := (and [
    orLiterals [.var (v i), .var (s i 0)],
    orLiterals [.notVar (s (i - 1) 0), .var (s i 0)]]).markArgs false
  addNode (.orIff (s i 0) [.notVar (v i), .var (s (i - 1) 0)])
  let second ← (rangeUntil 1 k).mapM fun j => do
    addNode (.orAnd (s i j)
      [[.notVar (v i), .var (s (i - 1) (j - 1))], [.var (s (i - 1) j)]])
    return and [
      orLiterals [.var (v i), .notVar (s (i - 1) (j - 1)), .var (s i j)],
      orLiterals [.notVar (s (i - 1) j), .var (s i j)]]
  let third := orLiterals [.var (v i), .notVar (s (i - 1) (k - 1))]
  return and [first, (and second).markArgs false, third]

/-- At most `k` of `vars` are false: a sequential counter whose variable
`svars[i][j]` holds when more than `j` of `vars[0..i]` are false. -/
def greaterOrEqual (vars : List Nat) (k : Nat) : Gen VariabledExpression := do
  let svars ← (List.range (vars.length - 1)).mapM fun _ =>
    (List.range k).mapM fun _ => newVariable
  if k = 0 then
    return { expr := and (vars.map fun v => .literal (.var v)) }
  -- `vars[0]` and `svars[0][0]` exist
  guard (1 < vars.length)
  let v (i : Nat) : Nat := vars.getD i 0
  let s (i j : Nat) : Nat := (svars.getD i []).getD j 0
  let head ← greaterOrEqualHead v s k
  let middle ← (rangeUntil 1 (vars.length - 1)).mapM (greaterOrEqualMiddle v s k)
  let last := v (vars.length - 1)
  let lastRow := svars.getD (vars.length - 2) []
  let tail := orLiterals [.var last, .notVar (lastRow.getD (k - 1) 0)]
  let reversed := lastRow.reverse
  return {
    expr := and [head, and middle, tail]
    vars := reversed.mapIdx fun i it =>
      and [orLiterals [.var last, .notVar it],
        if i = 0 then .constTrue else .literal (.notVar (reversed.getD (i - 1) 0))] }

/-- `log2`: `31 - numberOfLeadingZeros(i)`, plus one unless `i` is a power of two. -/
def log2 (i : Nat) : Nat := Nat.log2 i + if i = 2 ^ Nat.log2 i then 0 else 1

def equal (vector : List Literal) (value : Nat) : Expression :=
  and (vector.mapIdx fun i var => .literal (if i + 1 = value then var else var.not))

def logEqual (vector : List Literal) (value : Nat) : Expression :=
  and (vector.mapIdx fun i var =>
    .literal (if (value >>> i) % 2 = 1 then var else var.not))

end LatinSquares.Generator
