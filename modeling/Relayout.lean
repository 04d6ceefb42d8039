import Relayout.Config.Load
import Relayout.Conversion.Cache
import Relayout.Proofs.Exact
import Relayout.Proofs.DestLayout
import Relayout.Proofs.Slices
import Relayout.Proofs.Words
import Relayout.Proofs.Trail
import Relayout.Proofs.Replay
import Relayout.Proofs.DescLayout
import Relayout.Proofs.Matching
import Relayout.Proofs.Located
import Relayout.Proofs.Chain
import Relayout.Proofs.Ranges
import Relayout.Proofs.PayloadOffset
import Relayout.Proofs.Native
import Relayout.Proofs.Footprint
import Relayout.Proofs.Frame
import Relayout.Proofs.Extent
import Relayout.Proofs.Reads
import Relayout.Proofs.Interpret
import Relayout.Proofs.Bounds
import Relayout.Proofs.Mirror
import Relayout.Proofs.Dispatch
import Relayout.Proofs.Identity
import Relayout.Proofs.Acceptance
import Relayout.Proofs.Amounts
import Relayout.Proofs.Vacant
import Relayout.Proofs.Measured
import Relayout.Proofs.Lenient
import Relayout.Proofs.Survey
import Relayout.Proofs.Numerals
import Relayout.Proofs.Nearest
import Relayout.Proofs.NearestValue
import Relayout.Proofs.Conversions
import Relayout.Proofs.Shortest
import Relayout.Proofs.Notation
import Relayout.Proofs.Grammar
import Relayout.Proofs.Described
import Relayout.Proofs.Canonical
import Relayout.Proofs.Documents
import Relayout.Proofs.Violations
import Relayout.Proofs.Zeros
import Relayout.Proofs.Alike
import Relayout.Proofs.Caching
import Relayout.Proofs.Precedence
import Relayout.Proofs.Abreast
import Relayout.Proofs.Relocation
import Relayout.Proofs.Surplus
import Relayout.Proofs.Paired
import Relayout.Proofs.Reordering
import Relayout.Proofs.Confined
import Relayout.Proofs.SolePart
import Relayout.Proofs.LayoutRules
import Relayout.Proofs.Aligned
import Relayout.Proofs.Complete
import Relayout.Proofs.Substitution
import Relayout.Proofs.Quoting
import Relayout.Proofs.Spellings
import Relayout.Proofs.Gathering
