import Wiring.Config.Json
import Wiring.Config.Text
import Wiring.ContainerPlan
import Wiring.Declarations
import Wiring.Lifecycle.Store
import Wiring.Plan.Text
import Wiring.Proofs.Plan.Order
import Wiring.Proofs.Schedule.Chain
import Wiring.Proofs.Schedule.Linearization
import Wiring.Proofs.Assembly.Derivation
import Wiring.Proofs.Assembly.Calls
import Wiring.Proofs.Plan.Tree
import Wiring.Proofs.Plan.Emission
import Wiring.Proofs.Catalog
import Wiring.Proofs.Survey.Run
import Wiring.Proofs.Parameters
import Wiring.Proofs.Assembly.Layout
import Wiring.Proofs.Assembly.Topology
import Wiring.Proofs.Assembly.Capture
import Wiring.Proofs.Container.CreationOrder
import Wiring.Proofs.Container.Accessors
import Wiring.Proofs.Container.Asking
import Wiring.Proofs.Unfolding.Basic
import Wiring.Proofs.Unfolding.Exploration
import Wiring.Proofs.Check.Run
import Wiring.Proofs.Check.Exactness
import Wiring.Proofs.Unfolding.Consistency
import Wiring.Proofs.Unfolding.Finite
import Wiring.Proofs.Survey.Exploration
import Wiring.Proofs.Survey.Exactness
import Wiring.Proofs.Assembly.Calm
import Wiring.Proofs.Container.Calm
import Wiring.Proofs.Assembly.Direct
import Wiring.Proofs.Container.Creation
import Wiring.Proofs.Assembly.Failures
import Wiring.Proofs.Assembly.Stops
import Wiring.Proofs.Container.Failures
import Wiring.Proofs.Container.Stops
import Wiring.Proofs.Container.Depth
import Wiring.Proofs.Unfolding.Cycles
import Wiring.Proofs.Check.Exploration
import Wiring.Proofs.Check.Cycles
import Wiring.Proofs.Container.Discovery
import Wiring.Proofs.Container.Agreement
import Wiring.Proofs.Assembly.Scheduling
import Wiring.Proofs.Assembly.Sharing
import Wiring.Proofs.Assembly.Linearity
import Wiring.Proofs.Assembly.Releases
import Wiring.Proofs.Assembly.Typing
import Wiring.Proofs.Matching
import Wiring.Proofs.Typing
import Wiring.Proofs.Plan.Values
import Wiring.Proofs.Plan.Releases
import Wiring.Proofs.Plan.Typing
import Wiring.Proofs.Plan.Linearity
import Wiring.Proofs.Assembly.Naming
import Wiring.Proofs.Assembly.Origin
import Wiring.Proofs.Assembly.Omission
import Wiring.Proofs.Extension.Runs
import Wiring.Proofs.Assembly.Reach
import Wiring.Proofs.Assembly.ReleaseStyle
import Wiring.Proofs.Survey.Walk
import Wiring.Proofs.Container.Reach
import Wiring.Proofs.Container.ReleaseStyle
import Wiring.Proofs.Container.RawMemory
import Wiring.Proofs.Assembly.Coverage
import Wiring.Proofs.Check.Reports
import Wiring.Proofs.Check.Hoisting
import Wiring.Proofs.Schedule.Greedy
import Wiring.Proofs.Matching.Least
import Wiring.Proofs.Lifecycle.Effects
import Wiring.Proofs.Lifecycle.Cells
import Wiring.Proofs.Check.Permissiveness
import Wiring.Proofs.Assembly.Hoisting
import Wiring.Proofs.Nesting
import Wiring.Proofs.Assembly.Freshness
import Wiring.Proofs.Assembly.Tasks
import Wiring.Proofs.Decoration
import Wiring.Proofs.Arrays
import Wiring.Proofs.LexicalScope
import Wiring.Proofs.Cancellation
import Wiring.Proofs.Assembly.DataFlow
import Wiring.Proofs.Lifecycle.Registries
import Wiring.Proofs.Declared
