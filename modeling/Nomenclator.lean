import Nomenclator.Command.Directory
import Nomenclator.Main
import Nomenclator.Name.WellFormed
import Nomenclator.Sources
import Nomenclator.Proofs.Name.RoundTrip
import Nomenclator.Proofs.Grammar.Canonical
import Nomenclator.Proofs.Grammar.CanonicalCode
import Nomenclator.Proofs.Grammar.CanonicalUnit
import Nomenclator.Proofs.Numbering.Holding
import Nomenclator.Proofs.Numbering.Walk
import Nomenclator.Proofs.Numbering.Distinct
import Nomenclator.Proofs.Numbering.Step
import Nomenclator.Proofs.Declaration.Shape
import Nomenclator.Proofs.Grammar.Ensures
import Nomenclator.Proofs.Grammar.Shape
import Nomenclator.Proofs.NameTable.RoundTrip
import Nomenclator.Proofs.Numbering.Epoch
import Nomenclator.Proofs.Declaration.Preorder
import Nomenclator.Proofs.Grammar.Order
import Nomenclator.Proofs.NameTable.Index
import Nomenclator.Proofs.NameTable.Bisection
import Nomenclator.Proofs.Grammar.Brackets
import Nomenclator.Proofs.Grammar.Recovery
import Nomenclator.Proofs.Grammar.Stays
import Nomenclator.Proofs.Grammar.Containment
import Nomenclator.Proofs.Numbering.Stability
import Nomenclator.Proofs.Declaration.Relocation
import Nomenclator.Proofs.Grammar.Alongside
import Nomenclator.Proofs.Grammar.AlongsideRules
import Nomenclator.Proofs.Grammar.Totality
import Nomenclator.Proofs.NameTable.Relocation
import Nomenclator.Proofs.Token.Cutting
import Nomenclator.Proofs.Token.Layout
import Nomenclator.Proofs.Token.Contents
import Nomenclator.Proofs.Token.Partition
import Nomenclator.Proofs.Numbering.RoundTrip
import Nomenclator.Proofs.Name.Spelled
import Nomenclator.Proofs.Command.Agreement
import Nomenclator.Proofs.Declaration.Placement
import Nomenclator.Proofs.Grammar.Points
import Nomenclator.Proofs.Grammar.Placed
import Nomenclator.Proofs.NameTable.Places
import Nomenclator.Proofs.Grammar.Begins
import Nomenclator.Proofs.Numbering.Misuse
import Nomenclator.Proofs.NameTable.SourceOrder
import Nomenclator.Proofs.NameTable.Duplicates
import Nomenclator.Proofs.NameTable.Enclosing
import Nomenclator.Proofs.NameTable.Nesting
import Nomenclator.Proofs.Numbering.Restoring
import Nomenclator.Proofs.Grammar.Consumes
import Nomenclator.Proofs.Grammar.Modifiers
import Nomenclator.Proofs.Grammar.TypeErasure
import Nomenclator.Proofs.Grammar.CodeScan
import Nomenclator.Proofs.Name.Truncation
import Nomenclator.Proofs.Token.Relexing
import Nomenclator.Proofs.Grammar.Reports
import Nomenclator.Proofs.Grammar.Repeats
import Nomenclator.Proofs.Declaration.Forms
import Nomenclator.Proofs.Grammar.Forms
import Nomenclator.Proofs.NameTable.Operations
import Nomenclator.Proofs.Grammar.LambdaParameters
