import Pathwise.Program.Execution
import Pathwise.FlowGraph.Construction
import Pathwise.Coverage.Report
import Pathwise.Suite
import Pathwise.Proofs.Walk
import Pathwise.Proofs.Refinement
import Pathwise.Proofs.Trace
import Pathwise.Proofs.Shape
import Pathwise.Proofs.Distance
import Pathwise.Proofs.Access
import Pathwise.Proofs.Arithmetic
import Pathwise.Proofs.WideInterval
import Pathwise.Proofs.Constraint.Completion
import Pathwise.Proofs.Constraint.Propagation
import Pathwise.Proofs.Constraint.Search
import Pathwise.Proofs.Constraint.Narrowing
import Pathwise.Proofs.Constraint.Decision
import Pathwise.Proofs.Constraint.Odometer
import Pathwise.Proofs.PathCondition.Growth
import Pathwise.Proofs.PathCondition.Meaning
import Pathwise.Proofs.PathCondition.Exactness
import Pathwise.Proofs.PathCondition.SingleAssignment
import Pathwise.Proofs.Feasibility
import Pathwise.Proofs.BoundedPaths
import Pathwise.Proofs.PathCount
import Pathwise.Proofs.Ascending
import Pathwise.Proofs.Suite
import Pathwise.Proofs.Coverage.Delivery
import Pathwise.Proofs.Coverage.Subsumption
import Pathwise.Proofs.Coverage.Exercise
import Pathwise.Proofs.Coverage.Hierarchy
import Pathwise.Proofs.PathCondition.Errors
