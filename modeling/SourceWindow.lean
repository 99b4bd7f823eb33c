import SourceWindow.Main
import SourceWindow.Proofs.Edit.Halves
import SourceWindow.Proofs.Edit.Insertion
import SourceWindow.Proofs.Edit.Overlaps
import SourceWindow.Proofs.Edit.Selection
import SourceWindow.Proofs.Edit.Unfit
import SourceWindow.Proofs.Files.RawLines
import SourceWindow.Proofs.Grammar.Extensions
import SourceWindow.Proofs.Grammar.Names
import SourceWindow.Proofs.Lines.Counting
import SourceWindow.Proofs.Lines.Lookup
import SourceWindow.Proofs.Lines.Splitting
import SourceWindow.Proofs.Renderer.Calls
import SourceWindow.Proofs.Renderer.Untouched
import SourceWindow.Proofs.Settings.Variables
import SourceWindow.Proofs.Syntax.FirstFault
import SourceWindow.Proofs.Text.Decoding
import SourceWindow.Proofs.Text.Integer
import SourceWindow.Proofs.Truncation.Bounds
import SourceWindow.Proofs.Truncation.HiddenMiddle
import SourceWindow.Proofs.Truncation.Layout
import SourceWindow.Proofs.Truncation.Limits
import SourceWindow.Proofs.Truncation.Locality
import SourceWindow.Proofs.Truncation.Order
import SourceWindow.Proofs.Truncation.Outermost
import SourceWindow.Proofs.Truncation.Sizes
import SourceWindow.Proofs.Window.Printing
