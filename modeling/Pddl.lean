import Pddl.Text.Quoted
import Pddl.Text.Name
import Pddl.Locator
import Pddl.Lexeme
import Pddl.Tree
import Pddl.Catalog
import Pddl.Uri
import Pddl.Language
import Pddl.Settings
import Pddl.Reader
import Pddl.Project.Relation
import Pddl.Proofs.Project.Files
import Pddl.Proofs.Project.Step
import Pddl.Proofs.Project.Versions
import Pddl.Proofs.Project.Feed
import Pddl.Proofs.Project.Status
import Pddl.Proofs.Project.Invalidation
import Pddl.Proofs.Project.Readers
import Pddl.Proofs.Syntax.Grammar
import Pddl.Proofs.Syntax.Nodes
import Pddl.Proofs.Text.Slice
import Pddl.Proofs.Text.Words
import Pddl.Proofs.Syntax.Tiling
import Pddl.Proofs.Syntax.Scan
import Pddl.Proofs.Syntax.Matching
import Pddl.Proofs.Syntax.Building
import Pddl.Proofs.Syntax.Segmentation
import Pddl.Proofs.Syntax.Growth
import Pddl.Proofs.Syntax.Fitting
import Pddl.Proofs.Syntax.Locality
import Pddl.Proofs.Syntax.Comments
import Pddl.Proofs.Reading.Sections
import Pddl.Proofs.Position.Offsets
import Pddl.Proofs.Position.Ranges
import Pddl.Proofs.Reading.Uncommented
import Pddl.Proofs.Reading.Writing
import Pddl.Proofs.Project.Dirtying
import Pddl.Proofs.Project.Relations
import Pddl.Proofs.Types.Drawing
import Pddl.Proofs.Types.Search
import Pddl.Proofs.Types.Inheritance
import Pddl.Proofs.Types.Subtyping
import Pddl.Proofs.Types.Objects
import Pddl.Proofs.Uri.Paths
import Pddl.Proofs.Project.Relocation
import Pddl.Proofs.Types.Breadth
import Pddl.Proofs.Types.Groups
import Pddl.Proofs.Types.Tops
import Pddl.Proofs.Types.Lookup
import Pddl.Proofs.Syntax.Sight
import Pddl.Proofs.Text.Kept
import Pddl.Proofs.Reading.Cuts
import Pddl.Proofs.Position.Lines
import Pddl.Proofs.Reading.Steps
import Pddl.Proofs.Reading.Annotations
import Pddl.Proofs.Text.Utf8
import Pddl.Proofs.Uri.Escapes
import Pddl.Proofs.Uri.Scans
import Pddl.Proofs.Uri.Endings
import Pddl.Proofs.Position.Columns
import Pddl.Proofs.Syntax.Traversal
import Pddl.Proofs.Types.RoundTrip
import Pddl.Proofs.Types.Agreement
import Pddl.Proofs.Types.Spelling
import Pddl.Proofs.Types.Indices
