/-
# The reader of the local search

`readDimacs` of `main.cpp` goes through the comments line by line. A line is taken for a heading,
or for an entry of the section that the last heading has opened; sections with one line of
numbers close themselves. The clauses are read behind the `p` line. `Net::parse_node` reads the
lines of the net.

A result `none` stands for a run that reads a variable it has not set, reads an empty vector, asks
for a vector of negative length or does not end.
-/

import LatinSquares.LocalSearch.Construction
import LatinSquares.Math.Streams

namespace LatinSquares.LocalSearch

open LatinSquares.Math

/-- The values of `parameter`. -/
inductive Parameter where
  | coreVariables
  | net
  | metaVariables
  | weights
  | toCompute
  | nothing
  deriving DecidableEq, Repr

/-- The lines that set `parameter`. -/
def Parameter.ofHeading (line : List Char) : Option Parameter :=
  if line = "c core variables:".toList then some coreVariables
  else if line = "c computationalNet:".toList then some net
  else if line = "c metaVariables:".toList then some metaVariables
  else if line = "c incrementalVariables:".toList then some nothing
  else if line = "c weights:".toList then some weights
  else if line = "c toCompute:".toList then some toCompute
  else none

/-- The nodes that `parse_node` has read, and `variable_to_node`; `none` is `UINT32_MAX`. -/
structure NetReader where
  nodes : List Node := []
  variableToNode : List (Option Nat) := []
  deriving DecidableEq, Repr

/-- The loop that reads the arguments of an `or_and`: a zero ends a list. -/
def orAndLists : List Literal → List Int → List (List Literal)
  | _, [] => []
  | currentArgs, arg :: args =>
      if arg = 0 then currentArgs :: orAndLists [] args
      else orAndLists (currentArgs ++ [Literal.ofDimacs arg]) args

/-- `while (ss >> arg)`, unless the stream has failed before. -/
def readLiterals : Option (List Char) → List Literal
  | none => []
  | some text => (readInts text).map Literal.ofDimacs

/-- The node that a line adds, from its tag, its variable and the rest of the line. -/
def nodeOfLine (tag : List Char) (variable_ : Nat) (rest : Option (List Char)) : Option Node :=
  if tag = "andIff".toList then some (.andIff variable_ (readLiterals rest))
  else if tag = "orIff".toList then some (.orIff variable_ (readLiterals rest))
  else if tag = "or_and".toList then
    some (.orAnd variable_ (orAndLists [] ((rest.map readInts).getD [])))
  else if tag = "value".toList then
    let value := (rest.bind readWord).map Prod.fst
    some (.value variable_ (value == some "true".toList))
  else none

/-- `parse_node`. -/
def NetReader.parseNode (r : NetReader) (line : List Char) : Option NetReader := do
  let (_, text) ← readWord line
  let (tag, text) ← readWord text
  let (variable_, rest) ← extractInt text
  guard (0 ≤ variable_ ∧ variable_ + 1 < 2 ^ 31)
  let size := max r.variableToNode.length (variable_.toNat + 1)
  let table := (resize size none r.variableToNode).set variable_.toNat (some r.nodes.length)
  return ⟨r.nodes ++ (nodeOfLine tag variable_.toNat rest).toList, table⟩

/-- The variables of `readDimacs` in its loop over the comments. -/
structure Reader where
  parameter : Parameter := .nothing
  coreVariables : List Literal := []
  metaVariables : List MetaVariable := []
  weights : List UInt32 := []
  toCompute : List UInt32 := []
  net : NetReader := {}
  deriving DecidableEq, Repr

namespace Reader

/-- The numbers on a line, after the word in front of them. -/
def numbers (line : List Char) : List Int :=
  match readWord line with
  | none => []
  | some (_, text) => readInts text

/-- A line of the section of the meta variables: a new one, or a value of the last one. -/
def readMetaLine (r : Reader) (line : List Char) : Option Reader :=
  if "c newVar".toList.isPrefixOf line then do
    let (_, text) ← readWord line
    let (_, text) ← readWord text
    let (m, text) ← extractUnsigned text
    let (row, text) ← extractUnsigned (← text)
    let (column, _) ← extractUnsigned (← text)
    let metaVariable : MetaVariable := ⟨UInt8.ofInt m, UInt8.ofInt row, UInt8.ofInt column, [], []⟩
    return { r with metaVariables := r.metaVariables ++ [metaVariable] }
  else do
    let last ← r.metaVariables.getLast?
    let (_, text) ← readWord line
    let (value, text) ← extractInt text
    let last := { last with
      variables_ := last.variables_ ++ [readLiterals text]
      values := last.values ++ [UInt8.ofInt value] }
    return { r with metaVariables := r.metaVariables.dropLast ++ [last] }

/-- The body of the loop, for the line it has got. -/
def readLine (r : Reader) (line : List Char) : Option Reader :=
  match Parameter.ofHeading line with
  | some parameter => some { r with parameter }
  | none =>
      match r.parameter with
      | .coreVariables => some { r with
          coreVariables := r.coreVariables ++ (numbers line).map Literal.ofDimacs
          parameter := .nothing }
      | .net => do return { r with net := ← r.net.parseNode line }
      | .metaVariables => r.readMetaLine line
      | .weights => some { r with
          weights := r.weights ++ (numbers line).map UInt32.ofInt
          parameter := .nothing }
      | .toCompute => some { r with
          toCompute := r.toCompute ++ (numbers line).map UInt32.ofInt
          parameter := .nothing }
      | .nothing => some r

/-- The loop over the comments: what it has read, the line it stops at, and those after it. -/
def readComments (r : Reader) : List (List Char) → Option (Reader × List Char × List (List Char))
  | [] => none
  | line :: lines => do
      let r ← r.readLine line
      if line.head? = some 'c' then r.readComments lines else return (r, line, lines)

end Reader

/-- `operator>>` of a clause, for at most as many rounds as the fuel says; the rest of the text is
missing if the stream has failed. -/
def readClauseFrom : Nat → List Char → Option (List Literal × Option (List Char))
  | 0, _ => none
  | fuel + 1, text => do
      let (value, rest) ← extractInt text
      if value = 0 then return ([], rest)
      let (literals, rest) ← readClauseFrom fuel (← rest)
      return (Literal.ofDimacs value :: literals, rest)

/-- The loop over the clauses. -/
def readClauses : Nat → Option (List Char) → Option (List Clause)
  | 0, _ => some []
  | clausesNumber + 1, text => do
      let text ← text
      let (literals, rest) ← readClauseFrom text.length text
      let clauses ← readClauses clausesNumber rest
      return ⟨literals⟩ :: clauses

/-- The arguments of the constructor of `CNF`. -/
structure Dimacs where
  clauses : List Clause
  literalCount : UInt32
  coreVariables : List Literal
  metaVars : List MetaVariable
  net : NetReader
  weights : List UInt32
  toCompute : List UInt32
  deriving DecidableEq, Repr

/-- `readDimacs`, for the text of the file. -/
def readDimacs (text : List Char) : Option Dimacs := do
  let (r, line, lines) ← ({} : Reader).readComments (getlines text)
  guard (5 ≤ line.length)
  let (literalCount, rest) ← extractInt (line.drop 5)
  let (clausesNumber, _) ← extractInt (← rest)
  guard (0 ≤ clausesNumber)
  let clauses ← readClauses clausesNumber.toNat (some (textOf lines))
  return ⟨clauses, UInt32.ofInt literalCount, r.coreVariables, r.metaVariables, r.net, r.weights,
    r.toCompute⟩

end LatinSquares.LocalSearch
