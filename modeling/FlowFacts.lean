import FlowFacts.Catalog
import FlowFacts.Program.ControlGraph
import FlowFacts.Proofs.Graph.Edges
import FlowFacts.Proofs.Equations.Checking
import FlowFacts.Proofs.Dataflow.Numbering
import FlowFacts.Proofs.Dataflow.LeastSolution
import FlowFacts.Proofs.FactSet
import FlowFacts.Proofs.FactSet.Operations
import FlowFacts.Proofs.LiveVariables.Paths
import FlowFacts.Proofs.Dataflow.Verification
import FlowFacts.Proofs.LiveVariables.Verification
import FlowFacts.Proofs.Dataflow.VisitOrder
import FlowFacts.Proofs.Equations.Growth
import FlowFacts.Proofs.Equations.Termination
import FlowFacts.Proofs.Dataflow.Termination
import FlowFacts.Proofs.Dataflow.Convergence
import FlowFacts.Proofs.Dataflow.Paths
import FlowFacts.Proofs.Equations.Comparison
import FlowFacts.Proofs.Dataflow.Strategies
import FlowFacts.Proofs.Equations.Limits
import FlowFacts.Proofs.Equations.Observation
import FlowFacts.Proofs.Dataflow.Settings
import FlowFacts.Proofs.Dataflow.Acceptance
import FlowFacts.Proofs.Graph.Cycles
import FlowFacts.Proofs.LiveVariables.Surplus
import FlowFacts.Proofs.Graph.Reachability
import FlowFacts.Proofs.Graph.Postorder
import FlowFacts.Proofs.Graph.Recursion
import FlowFacts.Proofs.Dataflow.Lookups
import FlowFacts.Proofs.Dataflow.Mirror
import FlowFacts.Proofs.Equations.Stages
import FlowFacts.Proofs.Equations.Ascent
import FlowFacts.Proofs.Equations.Waves
import FlowFacts.Proofs.Dataflow.Histories
import FlowFacts.Proofs.Dataflow.CatchingUp
import FlowFacts.Proofs.Graph.Topological
import FlowFacts.Proofs.Equations.OneSweep
import FlowFacts.Proofs.Dataflow.Acyclic
import FlowFacts.Proofs.Graph.Routes
import FlowFacts.Proofs.LiveVariables.Delay
import FlowFacts.Proofs.LiveVariables.Errors
import FlowFacts.Proofs.Program.History
import FlowFacts.Proofs.Program.Reachability
import FlowFacts.Proofs.Graph.Stack
import FlowFacts.Proofs.Dataflow.Waiting
import FlowFacts.Proofs.Dataflow.Accounts
import FlowFacts.Proofs.Catalog.Sessions
