import Overload.Types.Term
import Overload.Types.Store
import Overload.Types.Walk
import Overload.Types.Text
import Overload.Types.Signature
import Overload.Trace
import Overload.Inference.Session
import Overload.Inference.Unify
import Overload.Inference.Copy
import Overload.Inference.Expr
import Overload.Number.Binary64
import Overload.Number.Decimal
import Overload.Values.Basic
import Overload.Values.Text
import Overload.Values.Typing
import Overload.Classes.Record
import Overload.Classes.Registry
import Overload.Classes.Build
import Overload.Settings.Basic
import Overload.Engine.Fault
import Overload.Values.Data
import Overload.Engine.Basic
import Overload.Engine.Action
import Overload.Engine.Operation
import Overload.Engine.Call
import Overload.Script
import Overload.Standard
import Overload.Toml.Node
import Overload.Toml.Reader
import Overload.Settings.Document
import Overload.Proofs.ClassTables
import Overload.Proofs.Substitution
import Overload.Proofs.Links
import Overload.Proofs.Change
import Overload.Proofs.Observation
import Overload.Proofs.Outcome
import Overload.Proofs.Unification
import Overload.Proofs.Analysis
import Overload.Proofs.ValueTypes
import Overload.Proofs.Reachability
import Overload.Proofs.RegistrationOrder
import Overload.Proofs.HindleyMilner
import Overload.Proofs.Soundness
import Overload.Proofs.Principality
import Overload.Proofs.Untouched
import Overload.Proofs.ValueTyping
import Overload.Proofs.Application
import Overload.Proofs.Instances
import Overload.Proofs.ValueSoundness
import Overload.Proofs.ValuePrincipality
import Overload.Proofs.CallSteps
import Overload.Proofs.PartialApplication
import Overload.Proofs.RunRules
import Overload.Proofs.HostRuns
import Overload.Proofs.TypedCalls
import Overload.Proofs.Constraints
import Overload.Proofs.Runs
import Overload.Proofs.Events
import Overload.Proofs.Currying
import Overload.Proofs.TypingFrame
import Overload.Proofs.Steps
import Overload.Proofs.TwoRuns
import Overload.Proofs.Symmetry
import Overload.Proofs.Twins
import Overload.Proofs.Lockstep
import Overload.Proofs.Isolation
import Overload.Proofs.Tracing
import Overload.Proofs.Moments
import Overload.Proofs.Termination
import Overload.Proofs.Instantiation
import Overload.Proofs.Independence
import Overload.Proofs.Display
import Overload.Proofs.Constructors
import Overload.Proofs.Conflicts
import Overload.Proofs.Heads
import Overload.Proofs.Registration
import Overload.Proofs.MethodCalls
import Overload.Proofs.Naming
import Overload.Proofs.Readability
import Overload.Proofs.Signatures
import Overload.Proofs.Equality
import Overload.Proofs.Installation
import Overload.Proofs.RunEquivalence
import Overload.Proofs.ListLaws
import Overload.Proofs.NameRuns
import Overload.Proofs.Queries
import Overload.Proofs.QueryAnswers
