import DynamicTypes.Host.Predicate
import DynamicTypes.Workload
import DynamicTypes.Proofs.TypeOrder
import DynamicTypes.Proofs.Classification
import DynamicTypes.Proofs.Membership
import DynamicTypes.Proofs.ClassificationSound
import DynamicTypes.Proofs.Bindings
import DynamicTypes.Proofs.Resolution
import DynamicTypes.Proofs.ResolutionSound
import DynamicTypes.Proofs.SessionSound
import DynamicTypes.Proofs.TypeText
import DynamicTypes.Proofs.ClassificationOrder
import DynamicTypes.Proofs.Independence
import DynamicTypes.Proofs.PartialApplication
import DynamicTypes.Proofs.ArrivalOrder
import DynamicTypes.Proofs.CheckLogic
import DynamicTypes.Proofs.Grouping
import DynamicTypes.Proofs.SessionRuns
import DynamicTypes.Proofs.Rejections
import DynamicTypes.Proofs.AppliedVariables
import DynamicTypes.Proofs.FreshVariables
import DynamicTypes.Proofs.ConcreteTypes
import DynamicTypes.Proofs.Execution
import DynamicTypes.Proofs.Narrowing
import DynamicTypes.Proofs.Reuse
import DynamicTypes.Proofs.SessionUse
import DynamicTypes.Proofs.Loci
import DynamicTypes.Proofs.Handover
import DynamicTypes.Proofs.Boundary
import DynamicTypes.Proofs.Callbacks
import DynamicTypes.Proofs.Simulation
import DynamicTypes.Proofs.Transparency
import DynamicTypes.Proofs.IndependentPositions
import DynamicTypes.Proofs.SlotFilling
import DynamicTypes.Proofs.TypeLayout
import DynamicTypes.Proofs.SignatureLayout
import DynamicTypes.Proofs.Lines
import DynamicTypes.Proofs.Carets
import DynamicTypes.Proofs.DeclarationOrder
import DynamicTypes.Proofs.FirstFailure
import DynamicTypes.Proofs.Printing
import DynamicTypes.Proofs.LeafText
import DynamicTypes.Proofs.PrintedEquality
import DynamicTypes.Proofs.ClassificationRuns
import DynamicTypes.Proofs.Outlines
import DynamicTypes.Proofs.RecordedSpans
import DynamicTypes.Proofs.TypeReading
import DynamicTypes.Proofs.Batches
import DynamicTypes.Proofs.Labels
import DynamicTypes.Proofs.Gregorian
import DynamicTypes.Proofs.Merging
import DynamicTypes.Proofs.RecordDeclaration
import DynamicTypes.Proofs.DateText
import DynamicTypes.Proofs.Traces
