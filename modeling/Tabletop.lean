import Tabletop.Proofs.Context.Disjoint
import Tabletop.Proofs.Context.Snapshot
import Tabletop.Proofs.Machine.Integer
import Tabletop.Proofs.Machine.Resolve
import Tabletop.Proofs.Model.Conversion
import Tabletop.Proofs.Model.Deferred
import Tabletop.Proofs.Model.Forged
import Tabletop.Proofs.Model.Nesting
import Tabletop.Proofs.Model.Options
import Tabletop.Proofs.Model.Range
import Tabletop.Proofs.Model.Specific
import Tabletop.Proofs.Prompt
import Tabletop.Proofs.Record.RoundTrip
import Tabletop.Proofs.Run.Aliases
import Tabletop.Proofs.Run.Arm
import Tabletop.Proofs.Run.Batch
import Tabletop.Proofs.Run.Checked
import Tabletop.Proofs.Run.Contest
import Tabletop.Proofs.Run.Cursor
import Tabletop.Proofs.Run.Exchange
import Tabletop.Proofs.Run.Guard
import Tabletop.Proofs.Run.Isolation
import Tabletop.Proofs.Run.Offer
import Tabletop.Proofs.Run.Returned
import Tabletop.Proofs.Run.Rounds
import Tabletop.Proofs.Run.Transparent
import Tabletop.Proofs.Table
import Tabletop.Proofs.Template.Access
import Tabletop.Proofs.Template.Condition
import Tabletop.Proofs.Template.Equality
import Tabletop.Proofs.Template.Pieces
import Tabletop.Proofs.Value.Spelling
import Tabletop.Run.Engine
import Tabletop.Value.Json
