/-
# The encoders

`LatinSquareEncoder`, `LogLatinSquareEncoder` and `OrthogonalArrayEncoder`: each
lays out the variables of the squares, which fixes the core variables, and then
builds the formula. A run of the program builds one encoder, so every encoder
starts from counter zero and the empty net.
-/

import LatinSquares.Generator.Latin

namespace LatinSquares.Generator

open Expression (and)

/-- A cell of a square and, for each symbol it may take, the literals that hold then. -/
structure MetaVariable where
  matrix : Nat
  row : Nat
  column : Nat
  values : List (Nat × List Literal)
  deriving DecidableEq, Repr

/-- A finished formula with everything the printed file says about it. -/
structure CNF where
  clauses : List Conjunct
  variables_ : List Nat
  coreVariables : List Nat := []
  metaVariables : List MetaVariable := []
  incremental : List Expression := []
  net : List Node := []
  weights : List Nat := []
  deriving Repr

/-- `distinct()`: the first of several equal clauses stays. -/
def distinct : List Conjunct → List Conjunct
  | [] => []
  | c :: cs => c :: (distinct cs).filter fun d => d.clause ≠ c.clause

/-- The arguments of `expr as And`. -/
def Expression.andArgs? : Expression → Option (List Conjunct)
  | .conj args => some args
  | .clause _ => none

/-- The constructor of `CNF` from an `And`. -/
def CNF.ofAnd (args : List Conjunct) (core : List Nat) (metaVars : List MetaVariable := [])
    (incremental : List Expression := []) (net : List Node := []) (weights : List Nat := []) :
    CNF where
  clauses := distinct args
  variables_ := (args.flatMap fun c => c.clause.names).dedup
  coreVariables := core
  metaVariables := metaVars
  incremental := incremental
  net := net
  weights := weights

inductive BreakingSymmetryType where
  | first
  | second
  | none
  deriving DecidableEq, Repr

structure LatinSquareEncoder where
  reduced : Bool
  weighted : Bool := false
  breakingSymmetryType : BreakingSymmetryType := .none
  cycleNum : Int := -1
  n : Nat
  k : Nat
  q : Nat
  deriving Repr

/-- The pairs `i < j` of squares, in the order of the encoders' loops. -/
def squarePairs (k : Nat) : List (Nat × Nat) :=
  (List.range k).flatMap fun i => (rangeUntil (i + 1) k).map fun j => (i, j)

namespace LatinSquareEncoder

/-- `coreVariables`. -/
def coreVariables (e : LatinSquareEncoder) : Gen (List Matrix) :=
  if e.reduced then do
    let first ← initFirstReducedMatrix e.n e.n e.n
    let others ← (rangeUntil 1 e.k).mapM fun _ => initReducedMatrix e.n e.n e.n
    return first :: others
  else
    (List.range e.k).mapM fun _ => initMatrix e.n e.n e.n

/-- The symmetry-breaking part of the formula. -/
def symmetry (e : LatinSquareEncoder) (core : List Matrix) : Gen Expression :=
  if e.reduced then
    match e.breakingSymmetryType with
    | .first => do
        let square ← liftM core[0]?
        let row ← liftM square[1]?
        breakingSymmetry row 0 e.cycleNum
    | .second => do
        let square ← liftM core[1]?
        let row ← liftM square[0]?
        breakingSymmetry row 1 e.cycleNum
    | .none => return and []
  else return and []

/-- The values a cell may take, with the literals it has to decide for each. -/
def metaValues (n : Nat) (metaVar : List Literal) : List (Nat × List Literal) :=
  ((List.range' 1 n).map fun it =>
    (it, ((equal metaVar it).args.flatMap fun c => c.clause.args).filter fun l =>
      l ≠ .constTrue ∧ l ≠ .constFalse)).filter fun entry => entry.2 ≠ []

def metaVars (e : LatinSquareEncoder) (core : List Matrix) : List MetaVariable :=
  ((core.mapIdx fun matrix coreRows =>
    (coreRows.mapIdx fun row coreColumns =>
      coreColumns.mapIdx fun column metaVar =>
        (⟨matrix, row, column, metaValues e.n metaVar⟩ : MetaVariable)).flatten).flatten).filter
          fun it => it.values ≠ []

/-- `cnf`, from the construction of the encoder on. -/
def program (order : Order) (e : LatinSquareEncoder) : Gen CNF := do
  let core ← e.coreVariables
  let coreSize := (← get).varCounter
  let lines := core.map latin
  let latinWeights := List.replicate (and lines).args.length (if e.weighted then e.n else 1)
  let breaking ← e.symmetry core
  let ortho ← (squarePairs e.k).mapM fun p =>
    orthogonalSquare order (core.getD p.1 []) (core.getD p.2 []) e.q
  let orthoExpr := and (ortho.map VariabledExpression.expr)
  -- `transpose` of an empty list throws
  guard (ortho ≠ [])
  let args ← liftM (and [and [and lines, breaking], orthoExpr]).andArgs?
  return CNF.ofAnd args (List.range' 1 coreSize) (e.metaVars core)
    (transpose (ortho.map VariabledExpression.vars)).flatten (← get).nodes
    (latinWeights ++ List.replicate breaking.args.length 1 ++
      List.replicate orthoExpr.args.length 1)

def cnf (order : Order) (e : LatinSquareEncoder) : Option CNF :=
  (e.program order).run' {}

end LatinSquareEncoder

structure LogLatinSquareEncoder where
  reduced : Bool
  n : Nat
  k : Nat
  q : Nat
  deriving Repr

namespace LogLatinSquareEncoder

/-- `coreVariables`. -/
def coreVariables (e : LogLatinSquareEncoder) : Gen (List Matrix) :=
  if e.reduced then do
    let first ← initFirstReducedLogMatrix e.n e.n (log2 e.n)
    let others ← (rangeUntil 1 e.k).mapM fun _ => initReducedLogMatrix e.n e.n (log2 e.n)
    return first :: others
  else
    (List.range e.k).mapM fun _ => initMatrix e.n e.n (log2 e.n)

/-- The symmetry-breaking part of the formula. -/
def symmetry (e : LogLatinSquareEncoder) (ceitinVars : List Matrix) : Gen Expression :=
  if e.reduced then do
    let square ← liftM ceitinVars[0]?
    let row ← liftM square[1]?
    breakingSymmetry row
  else return and []

/-- The definitions of the symbol indicators of all cells. -/
def ceitinEqExprs (e : LogLatinSquareEncoder) (ceitinVars core : List Matrix) :
    Gen Expression := do
  let squares ← (List.range e.k).mapM fun t => do
    let rows ← (List.range e.n).mapM fun i => do
      let cells ← (List.range e.n).mapM fun j => do
        let symbols ← (List.range e.n).mapM fun v => do
          match (ceitinVars.getD t []).entry i j v with
          | .var name => iff name (logEqual ((core.getD t []).cell i j) v)
          | _ => failure
        return and symbols
      return and cells
    return and rows
  return and squares

/-- `cnf`, from the construction of the encoder on. -/
def program (e : LogLatinSquareEncoder) : Gen CNF := do
  let core ← e.coreVariables
  let coreSize := (← get).varCounter
  let ceitinVars ← (List.range e.k).mapM fun _ => initMatrix e.n e.n e.n
  let breaking ← e.symmetry ceitinVars
  let ceitinEq ← e.ceitinEqExprs ceitinVars core
  let lines := ceitinVars.map logLatin
  let ortho ← (squarePairs e.k).mapM fun p =>
    orthogonalLogSquare (ceitinVars.getD p.1 []) (ceitinVars.getD p.2 []) e.q
  guard (ortho ≠ [])
  let args ← liftM (and [and [and [ceitinEq, and lines],
    and (ortho.map VariabledExpression.expr)], breaking]).andArgs?
  return CNF.ofAnd args (List.range' 1 coreSize) []
    (transpose (ortho.map VariabledExpression.vars)).flatten (← get).nodes

def cnf (e : LogLatinSquareEncoder) : Option CNF :=
  e.program.run' {}

end LogLatinSquareEncoder

structure OrthogonalArrayEncoder where
  reduced : Bool
  n : Nat
  s : Nat
  q : Nat
  deriving Repr

/-- `OrthogonalArrayEncoderBuilder`. -/
def OrthogonalArrayEncoder.build (reduced : Bool) (n k q : Nat) : OrthogonalArrayEncoder where
  reduced := reduced
  n := n
  s := k + 2
  q := q

/-- The pairs of rows with a coordinate row first, in the order of the encoder's loop. -/
def coordinatePairs (s : Nat) : List (Nat × Nat) :=
  (List.range 2).flatMap fun i => (rangeUntil (i + 1) s).map fun j => (i, j)

/-- The pairs of other rows. -/
def squareRowPairs (s : Nat) : List (Nat × Nat) :=
  (rangeUntil 2 s).flatMap fun i => (rangeUntil (i + 1) s).map fun j => (i, j)

namespace OrthogonalArrayEncoder

/-- `coreVariables`. -/
def coreVariables (e : OrthogonalArrayEncoder) : Gen Matrix :=
  if e.reduced then initReducedArray e.s (e.n * e.n) e.n
  else initMatrix e.s (e.n * e.n) e.n

/-- `cnf`, from the construction of the encoder on. -/
def program (order : Order) (e : OrthogonalArrayEncoder) : Gen CNF := do
  let core ← e.coreVariables
  let coreSize := (← get).varCounter
  let lines := core.map codeSufficient
  let firstPair ← (coordinatePairs e.s).mapM fun p =>
    orthogonal order (core.getD p.1 []) (core.getD p.2 []) (e.n * e.n)
  let secondPair ← (squareRowPairs e.s).mapM fun p =>
    orthogonal order (core.getD p.1 []) (core.getD p.2 []) e.q
  let args ← liftM (and [and lines, and (firstPair.map VariabledExpression.expr),
    and (secondPair.map VariabledExpression.expr)]).andArgs?
  return CNF.ofAnd args (List.range' 1 coreSize)

def cnf (order : Order) (e : OrthogonalArrayEncoder) : Option CNF :=
  (e.program order).run' {}

end OrthogonalArrayEncoder

end LatinSquares.Generator
