import Smi.Definition.Lookup
import Smi.Main
import Smi.ObjectTree.Row
import Smi.ObjectTree.Scalar
import Smi.Proofs.Cache.RoundTrip
import Smi.Proofs.Compiler.AssignmentModule
import Smi.Proofs.ObjectTree.AddressMap
import Smi.Proofs.ObjectTree.Atomic
import Smi.Proofs.ObjectTree.Augment
import Smi.Proofs.ObjectTree.NextInstance
import Smi.Proofs.ObjectTree.Rows
import Smi.Proofs.OrderedMap
import Smi.Proofs.Outcome
import Smi.Proofs.ObjectTree.Leaf
import Smi.Proofs.Cache.History
import Smi.Proofs.Symbol.Coherence
import Smi.Proofs.Symbol.Distinction
import Smi.Proofs.Symbol.LineComment
import Smi.Proofs.Symbol.QuotedString
import Smi.Proofs.ObjectTree.Transition
import Smi.Proofs.ObjectTree.Owner
import Smi.Proofs.ObjectTree.Tidy
import Smi.Proofs.RowKey.Inverse
import Smi.Proofs.RowKey.Overlap
import Smi.Proofs.ObjectTree.Coexistence
import Smi.Proofs.ObjectTree.Complete
import Smi.Proofs.ObjectTree.Grouping
import Smi.Proofs.ObjectTree.ColumnKeys
import Smi.Proofs.ObjectTree.IndexResolution
import Smi.Proofs.ObjectTree.CellType
import Smi.Proofs.Compiler.Declaration
import Smi.Proofs.Compiler.Unit
import Smi.Proofs.Compiler.Resolution
import Smi.Proofs.Text.Dotted
import Smi.Proofs.Oid.Dotted
import Smi.Proofs.Provider.Scan
import Smi.Proofs.Provider.Columns
import Smi.Proofs.Definition.Lookup
import Smi.Proofs.ObjectTree.DefaultIndex
import Smi.Proofs.Oid.Obtained
import Smi.Proofs.Compiler.History
import Smi.Proofs.Compiler.Parent
import Smi.Proofs.Definition.Rebuilt
import Smi.Proofs.Cache.Loaded
import Smi.Proofs.ObjectTree.Acceptance
import Smi.Proofs.Compiler.Ascent
import Smi.Proofs.Compiler.IndexText
import Smi.Proofs.Compiler.EnumerationText
import Smi.Proofs.Compiler.Invocation
import Smi.Proofs.Compiler.Import
import Smi.Proofs.Compiler.Convention
import Smi.Proofs.Compiler.MacroClause
import Smi.Proofs.Cache.Truncation
import Smi.Proofs.ValueType
import Smi.Proofs.Provider.TableRun
import Smi.Proofs.Provider.Division
import Smi.Proofs.Cache.Fingerprint
import Smi.Proofs.ObjectTree.Nearest
import Smi.Proofs.Symbol.Conservation
import Smi.Proofs.Symbol.Position
import Smi.Proofs.Symbol.Order
import Smi.Proofs.Symbol.LineEnding
import Smi.Proofs.Text.Decimal
import Smi.Proofs.Text.Nearest
import Smi.Proofs.Text.Rounding
import Smi.Proofs.Oid.Exactness
