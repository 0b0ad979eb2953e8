import MarkupTree.Arena.Normalize
import MarkupTree.Arena.Builder
import MarkupTree.Document.Edit
import MarkupTree.Document.Normalize
import MarkupTree.Document.Read
import MarkupTree.Document.Traversal
import MarkupTree.Output
import MarkupTree.Proofs.Arena.Built
import MarkupTree.Proofs.Document.Normalized
import MarkupTree.Proofs.Arena.Lists
import MarkupTree.Proofs.Arena.Refusals
import MarkupTree.Proofs.Arena.Properties
import MarkupTree.Proofs.Arena.Payloads
import MarkupTree.Proofs.Html.Safety
import MarkupTree.Proofs.Html.Links
import MarkupTree.Proofs.Xml.Trees
import MarkupTree.Settings.Load
import MarkupTree.Proofs.Document.Traversals
import MarkupTree.Proofs.Document.Sites
import MarkupTree.Proofs.Html.Fragments
import MarkupTree.Proofs.Html.Hidden
import MarkupTree.Proofs.Html.Merging
import MarkupTree.Proofs.CommonMark.Margins
import MarkupTree.Proofs.Layout.Marks
import MarkupTree.Proofs.CommonMark.Escapes
import MarkupTree.Proofs.CommonMark.Quotes
import MarkupTree.Proofs.CommonMark.Escaping
import MarkupTree.Proofs.CommonMark.Paragraphs
import MarkupTree.Proofs.CommonMark.LineStarts
import MarkupTree.Proofs.CommonMark.Wrapping
import MarkupTree.Proofs.CommonMark.Narrow
import MarkupTree.Proofs.Document.Tightness
import MarkupTree.Proofs.Document.Ordered
import MarkupTree.Proofs.Source.BlankLines
import MarkupTree.Proofs.Document.Enclosed
import MarkupTree.Proofs.Latex.Tokens
import MarkupTree.Proofs.Latex.Balance
import MarkupTree.Proofs.Source.LineEndings
import MarkupTree.Proofs.CommonMark.Unwrapping
import MarkupTree.Proofs.Layout.Widths
import MarkupTree.Proofs.CommonMark.TightLists
import MarkupTree.Proofs.CommonMark.Fences
import MarkupTree.Proofs.CommonMark.Spans
import MarkupTree.Proofs.CommonMark.Rules
import MarkupTree.Proofs.CommonMark.Headings
import MarkupTree.Proofs.CommonMark.Autolinks
import MarkupTree.Proofs.CommonMark.Destinations
import MarkupTree.Proofs.CommonMark.Emphasis
import MarkupTree.Proofs.Latex.Numbering
import MarkupTree.Proofs.Latex.Hyphens
import MarkupTree.Proofs.Latex.Environments
import MarkupTree.Proofs.Settings.Loading
import MarkupTree.Proofs.Document.Bytes
import MarkupTree.Proofs.Html.Escaping
