import Concord.Main
import Concord.Workspace.Memory
import Concord.Proofs.Engine.Rename
import Concord.Proofs.Literal.RoundTrip
import Concord.Proofs.Literal.Raw
import Concord.Proofs.Text.Places
import Concord.Proofs.Text.LineStarts
import Concord.Proofs.Text.Rounding
import Concord.Proofs.Text.Resolution
import Concord.Proofs.Edit.Splice
import Concord.Proofs.Edit.Applied
import Concord.Proofs.Edit.EditSet
import Concord.Proofs.Edit.Pushes
import Concord.Proofs.Edit.RenameSites
import Concord.Proofs.Workspace.Disk
import Concord.Proofs.Workspace.AllOrNone
import Concord.Proofs.Consistency.Exact
import Concord.Proofs.Catalog.Written
import Concord.Proofs.Catalog.Blocks
import Concord.Proofs.Catalog.Insertions
import Concord.Proofs.Catalog.Spans
import Concord.Proofs.Catalog.Outcomes
import Concord.Proofs.Schedule.Delivery
import Concord.Proofs.Schedule.Disposal
import Concord.Proofs.Engine.Publishing
import Concord.Proofs.Engine.KeyAt
import Concord.Proofs.Service.Diagnostics
import Concord.Proofs.Service.Rename
import Concord.Proofs.Source.Correspondence
import Concord.Proofs.Engine.Queued
import Concord.Proofs.Engine.Order
import Concord.Proofs.Schedule.Thinning
import Concord.Proofs.Cache.Generation
import Concord.Proofs.Literal.CodeUnits
import Concord.Proofs.Config.WellFormed
import Concord.Proofs.Workspace.Listing
