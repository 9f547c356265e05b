import MixedInteger.Arithmetic.Exact
import MixedInteger.Main
import MixedInteger.ModelFile.Writer
import MixedInteger.Proofs.Exact.Rational
import MixedInteger.Proofs.Simplex.Bookkeeping
import MixedInteger.Proofs.Program.Rational
import MixedInteger.Proofs.Simplex.Limit
import MixedInteger.Proofs.Simplex.Start
import MixedInteger.Proofs.Simplex.Inverse
import MixedInteger.Proofs.Simplex.Pricing
import MixedInteger.Proofs.Simplex.Placement
import MixedInteger.Proofs.Simplex.Bounds
import MixedInteger.Proofs.Simplex.Artificial
import MixedInteger.Proofs.Simplex.Duality
import MixedInteger.Proofs.Simplex.Switch
import MixedInteger.Proofs.Simplex.Escape
import MixedInteger.Proofs.LowerBound
import MixedInteger.Proofs.Infeasibility
import MixedInteger.Proofs.Relaxation
import MixedInteger.Proofs.Residual
import MixedInteger.Proofs.Program.Ray
import MixedInteger.Proofs.Unbounded
import MixedInteger.Proofs.Search.Steps
import MixedInteger.Proofs.Search.Fractional
import MixedInteger.Proofs.Program.Tighten
import MixedInteger.Proofs.Search.Answers
import MixedInteger.Proofs.Simplex.Verdicts
import MixedInteger.Proofs.Search.Incumbent
import MixedInteger.Proofs.Search.Coverage
import MixedInteger.Proofs.Search.Containment
import MixedInteger.Proofs.Program.Cells
import MixedInteger.Proofs.Search.Finiteness
import MixedInteger.Proofs.Search.Rays
import MixedInteger.Proofs.PrimalBounds
import MixedInteger.Proofs.BasicSolution
import MixedInteger.Proofs.Search.History
import MixedInteger.Proofs.Search.Partition
import MixedInteger.Proofs.Search.Descent
import MixedInteger.Proofs.Exact.Reading
import MixedInteger.Proofs.Program.Statement
import MixedInteger.Proofs.Search.Nesting
import MixedInteger.Proofs.Search.Turns
import MixedInteger.Proofs.Search.Tally
import MixedInteger.Proofs.Search.Lineage
import MixedInteger.Proofs.Search.Bounding
import MixedInteger.Proofs.Simplex.Events
import MixedInteger.Proofs.Simplex.Objective
import MixedInteger.Proofs.Simplex.Level
import MixedInteger.Proofs.Stalling
import MixedInteger.Proofs.Improvement
import MixedInteger.Proofs.DeadEnd
import MixedInteger.Proofs.Certificate
import MixedInteger.Proofs.Attempts
import MixedInteger.Proofs.Continuous
import MixedInteger.Proofs.Simplex.Drift
import MixedInteger.Proofs.Overshoot
import MixedInteger.Proofs.Indexed.Lists
import MixedInteger.Proofs.Indexed.Tableau
import MixedInteger.Proofs.Indexed.Operations
import MixedInteger.Proofs.Indexed.Run
import MixedInteger.Proofs.Indexed.Solve
import MixedInteger.Proofs.LongestStep
import MixedInteger.Proofs.Binary64
import MixedInteger.Proofs.BasisRecords
import MixedInteger.Proofs.Acceptance
import MixedInteger.Proofs.Json.Numerals
import MixedInteger.Proofs.Json.Values
import MixedInteger.Proofs.Json.Tokens
import MixedInteger.Proofs.Json.Nesting
import MixedInteger.Proofs.Json.Spellings
import MixedInteger.Proofs.ModelFile.Objects
import MixedInteger.Proofs.ModelFile.Numbers
import MixedInteger.Proofs.ModelFile.RoundTrip
import MixedInteger.Proofs.ModelFile.Defects
import MixedInteger.Proofs.ModelFile.Spellings
import MixedInteger.Proofs.EarliestLeast
import MixedInteger.Proofs.Search.Selection
import MixedInteger.Proofs.Simplex.Choice
