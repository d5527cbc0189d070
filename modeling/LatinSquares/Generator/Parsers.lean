/-
# Reading the answer of a solver

`Parser.kt` and its subclasses turn the answer of a solver into squares or arrays, and
`main.kt` chooses encoder and parser by one name. A parser lays out the tables of its
encoder once more and hands out the values of the answer to their variables by position.

A line is a list of characters. What the parsers print while they work is left out; the
colours of `ReducedLatinParser` decide which of its units stay, so they are kept. `assert`
is checked when assertions are enabled, which is a parameter.
-/

import LatinSquares.Generator.Propagation
import LatinSquares.Generator.Encoders

namespace LatinSquares.Generator

inductive OutputFormat where
  | minisat
  | dimacs
  | maxsat
  deriving DecidableEq, Repr

inductive Result where
  | sat
  | unsat
  | unknown
  deriving DecidableEq, Repr

abbrev Line := List Char

/-- The line that says that there is a model. -/
def OutputFormat.sat : OutputFormat → Line
  | .minisat => ['S', 'A', 'T']
  | .dimacs => "s SATISFIABLE".toList
  | .maxsat => "s OPTIMUM FOUND".toList

/-- The line that says that there is none. -/
def OutputFormat.unsat : OutputFormat → Line
  | .minisat => ['U', 'N', 'S', 'A', 'T']
  | .dimacs => "s UNSATISFIABLE".toList
  | .maxsat => []

/-- `while (line[0] != 's') line = reader.readLine()`: the line it stops at and what is
left to read. An empty line throws, and so does the end of the file. -/
def skipToStatus : List Line → Option (Line × List Line)
  | [] => none
  | [] :: _ => none
  | (c :: line) :: lines => if c = 's' then some (c :: line, lines) else skipToStatus lines

/-- `parseHeader`, with the lines left to read. -/
def parseHeader (format : OutputFormat) (lines : List Line) : Option (Result × List Line) := do
  let read ← match format with
    | .minisat => some (lines.head?, lines.tail)
    | .dimacs | .maxsat => (skipToStatus lines).map fun p => (some p.1, p.2)
  return (if read.1 = some format.sat then .sat
    else if read.1 = some format.unsat then .unsat
    else .unknown, read.2)

/-- `parseVariable`. -/
def parseVariable (word : List Char) : Bool := word.head? ≠ some '-'

/-- `parseBody`. A `v` line without a second character throws at `substring(2)`. -/
def parseBody (format : OutputFormat) (lines : List Line) : Option (List Bool) :=
  match format with
  | .minisat => lines.head?.map fun line => (line.splitOn ' ').map parseVariable
  | .dimacs | .maxsat => do
      guard (∀ line ∈ lines, line ≠ [])
      let body := lines.filter fun line => line.head? = some 'v'
      guard (∀ line ∈ body, 2 ≤ line.length)
      return body.flatMap fun line => ((line.drop 2).splitOn ' ').map parseVariable

/-- The values a file lists, where its header says that there is a model. -/
def readValues (format : OutputFormat) (lines : List Line) : Option (List Bool) := do
  let header ← parseHeader format lines
  guard (header.1 = .sat)
  parseBody format header.2

/-- The loop of `parseIntLog`. -/
def parseIntLogFrom (values : List Bool) : List Literal → Nat → Nat → Nat → Option Nat
  | [], _, _, result => some result
  | .constTrue :: vars, index, pow, result =>
      parseIntLogFrom values vars index (pow * 2) (result + pow)
  | .var _ :: vars, index, pow, result => do
      let value ← values[index]?
      parseIntLogFrom values vars (index + 1) (pow * 2) (if value then result + pow else result)
  | .constFalse :: vars, index, pow, result => parseIntLogFrom values vars index (pow * 2) result
  | .notVar _ :: vars, index, pow, result => parseIntLogFrom values vars index (pow * 2) result

def parseIntLog (values : List Bool) (vars : List Literal) : Option Nat :=
  parseIntLogFrom values vars 0 1 0

/-- The loop of `parseIntOneHot`, which a second symbol ends. -/
def parseIntOneHotFrom (values : List Bool) : List Literal → Nat → Nat → Int → Option Int
  | [], _, _, result => some result
  | .constTrue :: vars, t, j, result =>
      if result ≠ -1 then some (-1) else parseIntOneHotFrom values vars (t + 1) j (t + 1)
  | .var _ :: vars, t, j, result => do
      let value ← values[j]?
      if value then
        if result ≠ -1 then some (-1) else parseIntOneHotFrom values vars (t + 1) (j + 1) (t + 1)
      else parseIntOneHotFrom values vars (t + 1) (j + 1) result
  | .constFalse :: vars, t, j, result => parseIntOneHotFrom values vars (t + 1) j result
  | .notVar _ :: vars, t, j, result => parseIntOneHotFrom values vars (t + 1) j result

def parseIntOneHot (values : List Bool) (vars : List Literal) : Option Int :=
  parseIntOneHotFrom values vars 0 0 (-1)

/-- `it is Variable`. -/
def Literal.isVariable : Literal → Bool
  | .var _ => true
  | _ => false

namespace UnitMap

/-- `mutableMapOf()`. -/
def empty : UnitMap := ⟨[], List.nodup_nil⟩

/-- `units[name] = value`: an entry that exists keeps its place. -/
def put (units : UnitMap) (name : Nat) (value : Bool) : UnitMap :=
  if h : name ∈ units.entries.map Prod.fst then
    { entries := units.entries.map fun p => if p.1 = name then (name, value) else p
      nodup := by
        have hkeys : (units.entries.map fun p => if p.1 = name then (name, value) else p).map
            Prod.fst = units.entries.map Prod.fst := by
          rw [List.map_map]
          refine List.map_congr_left fun p _ => ?_
          by_cases hp : p.1 = name <;> simp [hp]
        rw [hkeys]
        exact units.nodup }
  else
    { entries := units.entries ++ [(name, value)]
      nodup := by
        rw [List.map_append, List.nodup_append]
        refine ⟨units.nodup, List.nodup_singleton _, fun key hkey other hother => ?_⟩
        rw [List.mem_singleton.mp hother]
        rintro rfl
        exact h hkey }

/-- `units.remove(name)`. -/
def remove (units : UnitMap) (name : Nat) : UnitMap where
  entries := units.entries.filter fun p => p.1 ≠ name
  nodup := units.nodup.sublist (List.filter_sublist.map Prod.fst)

end UnitMap

/-- What a parser changes while it constructs its result: the counter, the place in the
values and the units it collects. -/
structure ParserState where
  generator : GenState := {}
  currentIndex : Nat := 0
  parsedUnits : UnitMap := .empty

abbrev Parse := StateT ParserState Option

/-- An allocator, called by a parser. -/
def allocate {α : Type} (allocator : Gen α) : Parse α := do
  let s ← get
  let run ← liftM (allocator.run s.generator)
  set { s with generator := run.2 }
  return run.1

/-- `subList` throws when the values run out. -/
def readNVars (values : List Bool) (n : Nat) : Parse (List Bool) := do
  let s ← get
  guard (s.currentIndex + n ≤ values.length)
  set { s with currentIndex := s.currentIndex + n }
  return (values.drop s.currentIndex).take n

/-- `matrix.map { line -> line.map { vars -> ... } }`: `count` says how many values a cell
takes and `parseInt` what it reads off them. -/
def readMatrix (values : List Bool) (count : List Literal → Nat)
    (parseInt : List Bool → List Literal → Option Int) (matrix : Matrix) :
    Parse (List (List Int)) :=
  matrix.mapM fun line => line.mapM fun vars => do
    let read ← readNVars values (count vars)
    liftM (parseInt read vars)

/-- `vars.count { it is Variable }`. -/
def variableCount (vars : List Literal) : Nat := vars.countP Literal.isVariable

/-- The assertions of the logarithmic parsers: no line and no column repeats a symbol. -/
def assertLatin (assertions : Bool) (matrixes : List (List (List Int))) : Parse Unit :=
  guard (assertions = true → ∀ matrix ∈ matrixes,
    (∀ line ∈ matrix, line.dedup.length = line.length) ∧
      ∀ line ∈ transpose matrix, line.dedup.length = line.length)

def LatinParser.construct (q matrixCount : Nat) (values : List Bool) :
    Parse (List (List (List Int))) := do
  let matrixes ← allocate ((List.range matrixCount).mapM fun _ => initMatrix q q q)
  matrixes.mapM (readMatrix values (fun _ => q) parseIntOneHot)

def LogLatinParser.construct (assertions : Bool) (q matrixCount : Nat) (values : List Bool) :
    Parse (List (List (List Int))) := do
  let matrixes ← allocate ((List.range matrixCount).mapM fun _ => initMatrix q q (log2 q))
  let matrixes ← matrixes.mapM (readMatrix values (fun _ => log2 q) fun read vars =>
    (parseIntLog read vars).map fun (it : Nat) => (it : Int) + 1)
  assertLatin assertions matrixes
  return matrixes

/-- `parseIntLog`, with `-1` for a code that is no symbol. -/
def parseSymbolLog (q : Nat) (values : List Bool) (vars : List Literal) : Option Int :=
  (parseIntLog values vars).map fun (it : Nat) => if q ≤ it then -1 else (it : Int) + 1

def ReducedLogLatinParser.construct (assertions : Bool) (q matrixCount : Nat) (values : List Bool) :
    Parse (List (List (List Int))) := do
  let reducedVarMatrix ← allocate (initFirstReducedLogMatrix q q (log2 q))
  let reducedMatrix ← readMatrix values variableCount (parseSymbolLog q) reducedVarMatrix
  let varMatrixes ← allocate
    ((List.range (matrixCount - 1)).mapM fun _ => initReducedLogMatrix q q (log2 q))
  let others ← varMatrixes.mapM (readMatrix values variableCount (parseSymbolLog q))
  assertLatin assertions (reducedMatrix :: others)
  return reducedMatrix :: others

namespace ReducedLatinParser

/-- `parsedUnits[otherVar] = if (q == it - 1) True else False` for the variables of a cell. -/
def putCell (units : UnitMap) (cell : List Literal) (it : Int) : UnitMap :=
  (cell.zipIdx.flatMap fun p => p.1.names.map fun name => (name, p.2)).foldl
    (fun units p => units.put p.1 (decide ((p.2 : Int) = it - 1))) units

/-- The squares, and the units of their cells. -/
def readSquares (values : List Bool) (otherVarMatrixes varMatrixes : List Matrix) :
    Parse (List (List (List Int))) :=
  varMatrixes.zipIdx.mapM fun matrix => do
    let otherMatrix ← liftM otherVarMatrixes[matrix.2]?
    matrix.1.zipIdx.mapM fun line => line.1.zipIdx.mapM fun vars => do
      let read ← readNVars values (variableCount vars.1)
      let it ← liftM (parseIntOneHot read vars.1)
      modify fun s => { s with
        parsedUnits := putCell s.parsedUnits (otherMatrix.cell line.2 vars.2) it }
      return it

inductive Color where
  | green
  | red
  | yellow
  | reset
  deriving DecidableEq, Repr

/-- The colour of a cell, from the symbols of its line and of its column. -/
def color (matrix : List (List Int)) (j index : Nat) : Color :=
  let array := matrix.getD j []
  let column := (transpose matrix).getD index []
  let symbol := array.getD index 0
  if array.dedup.length = array.length ∧ column.dedup.length = array.length then .green
  else if array.count symbol ≠ 1 ∨ column.count symbol ≠ 1 then .red
  else if array.dedup.length = array.length ∨ column.dedup.length = array.length then .yellow
  else .reset

/-- The variables whose units go when a cell is printed in its colour. -/
def discarded (otherMatrix : Matrix) (j index : Nat) : Color → List Literal
  | .green => []
  | .red => otherMatrix.flatMap (fun line => line.getD index []) ++ (otherMatrix.getD j []).flatten
  | .yellow => otherMatrix.cell j index
  | .reset => otherMatrix.cell j index

/-- The units left after a square is printed. -/
def printSquare (units : UnitMap) (otherMatrix : Matrix) (matrix : List (List Int)) : UnitMap :=
  ((List.range matrix.length).flatMap fun j =>
      (List.range (matrix.getD j []).length).flatMap fun index =>
        (discarded otherMatrix j index (color matrix j index)).flatMap Literal.names).foldl
    UnitMap.remove units

def construct (n k : Nat) (values : List Bool) : Parse (List (List (List Int))) := do
  let otherVarMatrixes ← allocate ((List.range k).mapM fun _ => initMatrix n n n)
  modify fun s => { s with generator := { s.generator with varCounter := 0 } }
  let reducedVarMatrix ← allocate (initFirstReducedMatrix n n n)
  let others ← allocate ((List.range (k - 1)).mapM fun _ => initReducedMatrix n n n)
  let matrixes ← readSquares values otherVarMatrixes (reducedVarMatrix :: others)
  modify fun s => { s with parsedUnits :=
    (otherVarMatrixes.zip matrixes).foldl (fun units p => printSquare units p.1 p.2) s.parsedUnits }
  return matrixes

end ReducedLatinParser

def ArrayParser.construct (n q : Nat) (values : List Bool) : Parse (List (List Int)) := do
  let array ← allocate (initMatrix q (n * n) n)
  readMatrix values (fun _ => n) parseIntOneHot array

def ReducedArrayParser.construct (n q : Nat) (values : List Bool) : Parse (List (List Int)) := do
  let array ← allocate (initReducedArray q (n * n) n)
  readMatrix values variableCount parseIntOneHot array

inductive Encoding where
  | array
  | reducedArray
  | latinOnehot
  | latinLog
  | reducedLatinOnehot
  | reducedLatinLog
  deriving DecidableEq, Repr

/-- What `parse` returns. -/
inductive Decoded where
  | squares (matrixes : List (List (List Int)))
  | array (rows : List (List Int))
  deriving DecidableEq, Repr

/-- `construct` of the parser for an encoding. -/
def Encoding.construct (encoding : Encoding) (assertions : Bool) (n k : Nat) (values : List Bool) :
    Parse Decoded :=
  match encoding with
  | .array => .array <$> ArrayParser.construct n k values
  | .reducedArray => .array <$> ReducedArrayParser.construct n k values
  | .latinOnehot => .squares <$> LatinParser.construct n k values
  | .latinLog => .squares <$> LogLatinParser.construct assertions n k values
  | .reducedLatinOnehot => .squares <$> ReducedLatinParser.construct n k values
  | .reducedLatinLog => .squares <$> ReducedLogLatinParser.construct assertions n k values

/-- `execute` of `DecodeCommand`. -/
def decode (assertions : Bool) (encoding : Encoding) (n k : Nat) (format : OutputFormat)
    (lines : List Line) : Option Decoded := do
  let values ← readValues format lines
  (encoding.construct assertions n k values).run' {}

/-- The options of `EncodeCommand` that its encoders take. -/
structure EncodeOptions where
  weighted : Bool := false
  breakingSymmetryType : BreakingSymmetryType := .none
  breakingSymmetryCycleNumber : Int := -1

/-- The formula `EncodeCommand` builds, before a previous result is propagated. -/
def encode (order : Order) (options : EncodeOptions) (encoding : Encoding) (n q r : Nat) :
    Option CNF :=
  match encoding with
  | .array => (OrthogonalArrayEncoder.build false n q r).cnf order
  | .latinLog => (⟨false, n, q, r⟩ : LogLatinSquareEncoder).cnf
  | .latinOnehot => (⟨false, options.weighted, .none, -1, n, q, r⟩ : LatinSquareEncoder).cnf order
  | .reducedArray => (OrthogonalArrayEncoder.build true n q r).cnf order
  | .reducedLatinLog => (⟨true, n, q, r⟩ : LogLatinSquareEncoder).cnf
  | .reducedLatinOnehot =>
      (⟨true, options.weighted, options.breakingSymmetryType, options.breakingSymmetryCycleNumber,
        n, q, r⟩ : LatinSquareEncoder).cnf order

/-- The file of the option `-p`, as `ReducedLatinParser` reads it: the squares and the
units it keeps of them. -/
def readPropagated (n q : Nat) (lines : List Line) :
    Option (List (List (List Int)) × UnitMap) := do
  let values ← readValues .minisat lines
  let run ← (ReducedLatinParser.construct n q values).run {}
  return (run.1, run.2.parsedUnits)

/-- The formula `EncodeCommand` builds with the option `-p`. -/
def encodePropagated (order : Order) (options : EncodeOptions) (encoding : Encoding) (n q r : Nat)
    (lines : List Line) : Option CNF := do
  let cnf ← encode order options encoding n q r
  let propagated ← readPropagated n q lines
  return cnf.propagate propagated.2

end LatinSquares.Generator
