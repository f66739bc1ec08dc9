import Assay.Text.Digit
import Assay.Text.Letter
import Assay.Source
import Assay.Text.Quoted
import Assay.Tree
import Assay.Tree.Node
import Assay.Token.Lexer
import Assay.Tree.Parser
import Assay.Scope
import Assay.Diagnostic.Layout
import Assay.Reading
import Assay.Tree.Relatives
import Assay.Attributes
import Assay.Shape
import Assay.Tree.Revision
import Assay.Overload
import Assay.Index
import Assay.Manifest
import Assay.Tree.Outline
import Assay.Disk.Memory
import Assay.Project
import Assay.Command.Outline
import Assay.Main
import Assay.Proofs.Chained
import Assay.Proofs.Distinct
import Assay.Proofs.Kept
import Assay.Proofs.Resolved
import Assay.Proofs.Denoted
import Assay.Proofs.Intact
import Assay.Proofs.Overloaded
import Assay.Proofs.Accounted
import Assay.Proofs.Legible
import Assay.Proofs.Reread
import Assay.Proofs.Stopped
import Assay.Proofs.Completed
import Assay.Proofs.Ranged
import Assay.Proofs.Referred
import Assay.Proofs.Mapped
import Assay.Proofs.Interpreted
import Assay.Proofs.Repeated
import Assay.Proofs.Projected
import Assay.Proofs.Canonical
import Assay.Proofs.Cleaned
import Assay.Proofs.Underlined
import Assay.Proofs.Partitioned
