import LatinSquares.Math.Projection
import LatinSquares.Math.Program
import LatinSquares.Math.Words
import LatinSquares.Math.Streams
import LatinSquares.Math.Recompute
import LatinSquares.Math.Cursor
import LatinSquares.Math.LatinSquare
import LatinSquares.Math.OneHot
import LatinSquares.Math.SequentialCounter
import LatinSquares.Math.RoundRobin
import LatinSquares.Math.Partition
import LatinSquares.Math.CycleLayout
import LatinSquares.Math.CanonicalForm
import LatinSquares.Math.OrthogonalArray
import LatinSquares.Generator.Scope
import LatinSquares.Generator.Building
import LatinSquares.Generator.Blocks
import LatinSquares.Generator.Counter
import LatinSquares.Generator.Definitions
import LatinSquares.Generator.Orthogonality
import LatinSquares.Generator.Tables
import LatinSquares.Generator.Squares
import LatinSquares.Generator.Cycles
import LatinSquares.Generator.Pairs
import LatinSquares.Generator.Encoders
import LatinSquares.Generator.Printing
import LatinSquares.Generator.Assembly
import LatinSquares.Generator.OneHotEncoder
import LatinSquares.Generator.Unreduced
import LatinSquares.Generator.Reduced
import LatinSquares.Generator.LogEncoder
import LatinSquares.Generator.UnreducedLog
import LatinSquares.Generator.ReducedLog
import LatinSquares.Generator.ArrayEncoder
import LatinSquares.Generator.Arrays
import LatinSquares.Generator.Incremental
import LatinSquares.Generator.Occurrence
import LatinSquares.Generator.Numbering
import LatinSquares.Generator.Cells
import LatinSquares.Generator.Propagation
import LatinSquares.Generator.Parsers
import LatinSquares.Generator.Reading
import LatinSquares.Generator.Decoding
import LatinSquares.Generator.Replay
import LatinSquares.Generator.Retained
import LatinSquares.Generator.Fixing
import LatinSquares.Generator.NetReads
import LatinSquares.Generator.Tautologies
import LatinSquares.Generator.Hornify
import LatinSquares.Math.Writing
import LatinSquares.Generator.CnfMakerNew
import LatinSquares.Generator.Oto
import LatinSquares.LocalSearch.Net
import LatinSquares.LocalSearch.Evaluation
import LatinSquares.LocalSearch.Finalize
import LatinSquares.LocalSearch.Closure
import LatinSquares.LocalSearch.Clause
import LatinSquares.LocalSearch.Search
import LatinSquares.LocalSearch.Solver
import LatinSquares.LocalSearch.Certificate
import LatinSquares.LocalSearch.Books
import LatinSquares.LocalSearch.Check
import LatinSquares.LocalSearch.Construct
import LatinSquares.LocalSearch.Commit
import LatinSquares.LocalSearch.Input
import LatinSquares.LocalSearch.Ignored
import LatinSquares.LocalSearch.Sampling
import LatinSquares.LocalSearch.Neighbours
import LatinSquares.LocalSearch.Depths
import LatinSquares.LocalSearch.Ledger
import LatinSquares.Math.UnitPropagation
import LatinSquares.Math.Loops
import LatinSquares.Math.Odometer
import LatinSquares.LocalSearch.Reduced
import LatinSquares.LocalSearch.Construction
import LatinSquares.LocalSearch.Mirror
import LatinSquares.LocalSearch.Accepted
import LatinSquares.LocalSearch.Shape
import LatinSquares.LocalSearch.Symbols
import LatinSquares.LocalSearch.Combinations
import LatinSquares.LocalSearch.TaskPool
import LatinSquares.LocalSearch.IffNodes
import LatinSquares.LocalSearch.StaysAscending
import LatinSquares.LocalSearch.Accesses
import LatinSquares.LocalSearch.Bags
import LatinSquares.LocalSearch.Bounds
import LatinSquares.LocalSearch.RoundTables
import LatinSquares.LocalSearch.Deltas
import LatinSquares.LocalSearch.Twice
import LatinSquares.LocalSearch.Dimacs
import LatinSquares.LocalSearch.GeneratedFile
import LatinSquares.LocalSearch.Domain
import LatinSquares.LocalSearch.Loop
import LatinSquares.Incremental.Driver
import LatinSquares.Generator.Weights
