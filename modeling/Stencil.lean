import Stencil.Data.Json
import Stencil.Main
import Stencil.Proofs.Chain
import Stencil.Proofs.Reading
import Stencil.Session
import Stencil.Proofs.Reachable
import Stencil.Proofs.Language
import Stencil.Proofs.Ledger
import Stencil.Proofs.Passes
import Stencil.Proofs.FlatScan
import Stencil.Proofs.Outline
import Stencil.Proofs.Cutting
import Stencil.Proofs.Grammar
import Stencil.Proofs.Once
import Stencil.Proofs.RoundTrip
import Stencil.Proofs.FailedCalls
import Stencil.Proofs.Frontier
import Stencil.Proofs.Restart
import Stencil.Proofs.Plans
import Stencil.Proofs.Rendering
import Stencil.Proofs.Filling
import Stencil.Proofs.Contents
import Stencil.Proofs.Located
import Stencil.Proofs.Misfits
import Stencil.Proofs.Placed
import Stencil.Proofs.Rationed
import Stencil.Proofs.Regular
import Stencil.Proofs.ShortSinks
import Stencil.Proofs.Stretches
import Stencil.Proofs.Refilling
import Stencil.Proofs.Warned
import Stencil.Proofs.Blamed
import Stencil.Proofs.Excerpts
import Stencil.Proofs.Shapes
import Stencil.Proofs.Flushes
import Stencil.Proofs.Separate
import Stencil.Proofs.Respelled
import Stencil.Proofs.Leftmost
import Stencil.Proofs.Settled
import Stencil.Proofs.Places
import Stencil.Proofs.Asked
import Stencil.Proofs.Logged
import Stencil.Proofs.Delivered
import Stencil.Proofs.Grouped
import Stencil.Proofs.Selected
import Stencil.Proofs.Requests
import Stencil.Proofs.Walked
import Stencil.Proofs.Looked
import Stencil.Proofs.Judged
import Stencil.Proofs.Spelled
import Stencil.Proofs.Nearest
import Stencil.Proofs.Unmatched
import Stencil.Proofs.Ahead
import Stencil.Proofs.Heads
import Stencil.Proofs.Obstacles
import Stencil.Proofs.Checked
import Stencil.Proofs.Sliced.Blocks
import Stencil.Proofs.Stored.Represented
