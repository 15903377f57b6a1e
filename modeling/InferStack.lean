import InferStack.Kit.Table
import InferStack.Kit.Machine
import InferStack.Kit.Stutter
import InferStack.Kit.Kept
import InferStack.Kit.Proc
import InferStack.Kit.Levels
import InferStack.Kit.Holdings
import InferStack.Kit.Layered
import InferStack.Models
import InferStack.Catalog
import InferStack.Catalog.Union
import InferStack.Catalog.Definitions
import InferStack.Catalog.Digest
import InferStack.Catalog.Adoption
import InferStack.Catalog.Intended
import InferStack.Kit.Definitions
import InferStack.Store
import InferStack.Ledger
import InferStack.Ledger.Plan
import InferStack.Ledger.Overlay
import InferStack.Ledger.Spec
import InferStack.Ledger.Run
import InferStack.Ledger.Protection
import InferStack.Ledger.Coalescing
import InferStack.Ledger.Choice
import InferStack.Ledger.Offers
import InferStack.Ledger.Cheapest
import InferStack.Ledger.Binding
import InferStack.Ledger.Claims
import InferStack.Ledger.Forgetting
import InferStack.Ledger.Serial
import InferStack.Ledger.Serving
import InferStack.Ledger.Expiry
import InferStack.Placement
import InferStack.Residency
import InferStack.Compose.SelectiveApply
import InferStack.Compose.ApplySafety
import InferStack.Compose.Interchange
import InferStack.Compose.Apply
import InferStack.Kubeai
import InferStack.Gateway.Convergence
import InferStack.EnvText
import InferStack.Backend
import InferStack.Admission
import InferStack.Admission.View
import InferStack.Controller
import InferStack.Controller.Allocation
import InferStack.Controller.Publication
import InferStack.Controller.Fleet
import InferStack.Controller.Renewal
import InferStack.Controller.Keys
import InferStack.Controller.Rotation
import InferStack.Gateway.Routes
import InferStack.Gateway.Seeding
import InferStack.Gateway.SeedCommit
import InferStack.Gateway.Pruning
import InferStack.Gateway.Residents
import InferStack.Gateway.RouteChanges
import InferStack.Gateway.FrontDoor
import InferStack.Gateway.Memory
import InferStack.Controller.Waiting
import InferStack.Controller.Rollback
import InferStack.Gateway.Salt
import InferStack.Placement.Greedy
import InferStack.Placement.Stability
import InferStack.Placement.Room
import InferStack.Controller.Feasibility
import InferStack.Kit.Ranked
import InferStack.Transition
import InferStack.Transition.Renewals
import InferStack.Transition.Epoch
import InferStack.Compose.Enrichment
import InferStack.Kit.Template
import InferStack.Compose.Fingerprint
import InferStack.Compose.Midway
import InferStack.Compose.Retries
import InferStack.Compose.StartOrder
import InferStack.EnvRoundTrip
import InferStack.Kit.Pool
import InferStack.Addresses
import InferStack.Log.Splitter
import InferStack.Log.Filter
import InferStack.Log.Attribution
import InferStack.Kit.Words
import InferStack.Descriptor
import InferStack.Kit.Descent
import InferStack.Mockserver.Simulator
