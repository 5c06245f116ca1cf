import SolidityTree.Json.Printing
import SolidityTree.Reading
import SolidityTree.Proofs.Children
import SolidityTree.Proofs.Lookup
import SolidityTree.Proofs.Consistent
import SolidityTree.Proofs.Run
import SolidityTree.Proofs.Edits
import SolidityTree.Proofs.Documentation
import SolidityTree.Proofs.Making
import SolidityTree.Proofs.Sessions
import SolidityTree.Proofs.Rollback
import SolidityTree.Proofs.Draft
import SolidityTree.Proofs.Modern
import SolidityTree.Proofs.Legacy
import SolidityTree.Proofs.Schemas
import SolidityTree.Proofs.Extension
import SolidityTree.Proofs.Reading
import SolidityTree.Proofs.Additions
import SolidityTree.Proofs.Recovery
import SolidityTree.Proofs.Trees
import SolidityTree.Proofs.Growth
import SolidityTree.Proofs.Repetition
import SolidityTree.Proofs.Comments
import SolidityTree.Proofs.Clearing
import SolidityTree.Proofs.Idempotence
import SolidityTree.Proofs.Agreement
import SolidityTree.Proofs.Counter
import SolidityTree.Proofs.References
import SolidityTree.Proofs.Clashes
import SolidityTree.Proofs.Visits
import SolidityTree.Proofs.Capture
import SolidityTree.Proofs.Losses
import SolidityTree.Proofs.DocumentationNodes
import SolidityTree.Proofs.ReadInvariants
import SolidityTree.Proofs.ShallowRecords
import SolidityTree.Proofs.DocumentationReads
import SolidityTree.Proofs.Views
import SolidityTree.Proofs.Alike
import SolidityTree.Proofs.KeptRecords
import SolidityTree.Proofs.OwnIds
import SolidityTree.Proofs.RootOrder
import SolidityTree.Proofs.Positions
import SolidityTree.Proofs.Failures
import SolidityTree.Proofs.DocumentationTexts
import SolidityTree.Proofs.Copies
import SolidityTree.Proofs.DocumentationPlaces
import SolidityTree.Proofs.Extraction
import SolidityTree.Proofs.Scanning
import SolidityTree.Proofs.Reconstruction
import SolidityTree.Proofs.Traversal
import SolidityTree.Proofs.Subtrees
import SolidityTree.Proofs.Nesting
import SolidityTree.Proofs.Expansion
import SolidityTree.Proofs.Replacements
import SolidityTree.Proofs.Transplants
import SolidityTree.Proofs.SideTables
import SolidityTree.Proofs.RecordParts
import SolidityTree.Proofs.RawRecords
import SolidityTree.Proofs.SpanTexts
