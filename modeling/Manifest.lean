import Manifest.Main
import Manifest.Document.Word
import Manifest.Locator.Word
import Manifest.Proofs.Composing.Stream
import Manifest.Proofs.Composing.Descent
import Manifest.Proofs.Composing.Grammar
import Manifest.Proofs.Continuity
import Manifest.Proofs.LocatedInvariant
import Manifest.Proofs.Trimming
import Manifest.Proofs.NamedItems
import Manifest.Proofs.NameList.Entries
import Manifest.Proofs.Remembering.Histories
import Manifest.Proofs.Replay
import Manifest.Proofs.Scanning.Results
import Manifest.Proofs.Scanning.Exact
import Manifest.Proofs.Remembering.Stores
import Manifest.Proofs.Shifting
import Manifest.Proofs.Layering
import Manifest.Proofs.Absent.Cursors
import Manifest.Proofs.Absent.Scalars
import Manifest.Proofs.Absent.Tokens
import Manifest.Proofs.Absent.Events
import Manifest.Proofs.Absent.Documents
import Manifest.Proofs.Absent.Values
import Manifest.Proofs.Memory
import Manifest.Proofs.Watching.Loops
import Manifest.Proofs.Disks.Editing
import Manifest.Proofs.Disks.Below
import Manifest.Proofs.Scanning.RuleFiles
import Manifest.Proofs.Scanning.Isolated
import Manifest.Proofs.Slices
import Manifest.Proofs.Lines.Table
import Manifest.Proofs.Lines.Words
import Manifest.Proofs.Lines.Regions
import Manifest.Proofs.Lines.Positions
import Manifest.Proofs.Lines.Offsets
import Manifest.Proofs.Lines.Aligning
import Manifest.Proofs.Lines.Cuts
import Manifest.Proofs.Lines.Faultless
import Manifest.Proofs.Reporting
import Manifest.Proofs.Telling
import Manifest.Proofs.Disks.Making
import Manifest.Proofs.Disks.Ancestors
import Manifest.Proofs.Disks.Spellings
import Manifest.Proofs.Disks.Roots
import Manifest.Proofs.Remembering.Traces
import Manifest.Proofs.Scanning.LiteralGlobs
import Manifest.Proofs.Scanning.DeepGlobs
import Manifest.Proofs.Scanning.Pruning
import Manifest.Proofs.Disks.Erasing
import Manifest.Proofs.Scanning.IgnoreFile
import Manifest.Proofs.Scanning.Narrowing
import Manifest.Proofs.Layering.Merging
import Manifest.Proofs.JsonText.Grammar
import Manifest.Proofs.JsonText.Reports
import Manifest.Proofs.Reporting.PlainText
