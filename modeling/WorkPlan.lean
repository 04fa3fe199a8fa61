import WorkPlan.Audit
import WorkPlan.Json.Forms
import WorkPlan.Settings.Source
import WorkPlan.Store
import WorkPlan.Proofs.Search
import WorkPlan.Proofs.Ancestry
import WorkPlan.Proofs.Bounds
import WorkPlan.Proofs.Related
import WorkPlan.Proofs.Agenda
import WorkPlan.Proofs.Pass
import WorkPlan.Proofs.FinalDays
import WorkPlan.Proofs.Commit
import WorkPlan.Proofs.Dependence
import WorkPlan.Proofs.Precedence
import WorkPlan.Proofs.Consistency
import WorkPlan.Proofs.Excerpt
import WorkPlan.Proofs.PartialPass
import WorkPlan.Proofs.Reading
import WorkPlan.Proofs.Containment
import WorkPlan.Proofs.Repetition
import WorkPlan.Proofs.NewLink
import WorkPlan.Proofs.Audit
import WorkPlan.Proofs.LinkCycle
import WorkPlan.Proofs.Revision
import WorkPlan.Proofs.Renaming
import WorkPlan.Proofs.RenamedPass
import WorkPlan.Proofs.Lateness
import WorkPlan.Proofs.Monotone
import WorkPlan.Network.Indexed
import WorkPlan.Proofs.Indexed
import WorkPlan.Proofs.Displacement
import WorkPlan.Proofs.Earliest
import WorkPlan.Proofs.Detour
import WorkPlan.Proofs.LeafMoves
import WorkPlan.Proofs.Enclosure
import WorkPlan.Proofs.SpansInOrder
import WorkPlan.Proofs.Validity
import WorkPlan.Proofs.GuardedLinks
import WorkPlan.Proofs.Roles
import WorkPlan.Proofs.Collection
import WorkPlan.Countdown
import WorkPlan.Proofs.Countdown
import WorkPlan.Proofs.CanonicalOrder
import WorkPlan.Descent
import WorkPlan.Proofs.Descent
import WorkPlan.Proofs.LinkVerdict
import WorkPlan.Proofs.FaultCounts
import WorkPlan.Homecoming
import WorkPlan.Proofs.Homecoming
import WorkPlan.Proofs.ParentLoop
import WorkPlan.Proofs.WayToCycle
import WorkPlan.Proofs.Adoption
import WorkPlan.Proofs.Pruning
import WorkPlan.Proofs.IssueReport
import WorkPlan.Proofs.JsonForms
import WorkPlan.Proofs.Inheritance
import WorkPlan.Proofs.Hull
import WorkPlan.Loading
import WorkPlan.Proofs.Loading
import WorkPlan.Proofs.Expansion
import WorkPlan.Date.Stretch
import WorkPlan.Proofs.DayArithmetic
