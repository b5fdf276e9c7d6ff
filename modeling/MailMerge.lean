import MailMerge.Data.OfJson
import MailMerge.Proofs.Archives
import MailMerge.Proofs.Bounds
import MailMerge.Proofs.Branches
import MailMerge.Proofs.Declarations
import MailMerge.Proofs.Disclosure
import MailMerge.Proofs.DrawingIds
import MailMerge.Proofs.Embedding
import MailMerge.Proofs.Escaping
import MailMerge.Proofs.Extents
import MailMerge.Proofs.Faults
import MailMerge.Proofs.FreshIds
import MailMerge.Proofs.Independence
import MailMerge.Proofs.KeptSpace
import MailMerge.Proofs.LoopRegions
import MailMerge.Proofs.MediaParts
import MailMerge.Proofs.NestedRows
import MailMerge.Proofs.Placing
import MailMerge.Proofs.RasterSizes
import MailMerge.Proofs.References
import MailMerge.Proofs.RoundTrip
import MailMerge.Proofs.RowBounds
import MailMerge.Proofs.Shapes
import MailMerge.Proofs.Splicing
import MailMerge.Proofs.Stores
import MailMerge.Proofs.TextElements
import MailMerge.Proofs.Tree
import MailMerge.Proofs.Untagged
import MailMerge.Proofs.Verbatim
import MailMerge.Proofs.Visits
import MailMerge.Proofs.WholeTags
import MailMerge.Render.Document
