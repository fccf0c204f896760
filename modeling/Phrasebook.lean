import Phrasebook.Text.Ascii
import Phrasebook.Text.Span
import Phrasebook.Plural.Operator
import Phrasebook.Plural.Expr
import Phrasebook.Plural.Program
import Phrasebook.Plural.Rule
import Phrasebook.Json.Token
import Phrasebook.Json.Draft
import Phrasebook.Text.Quoted
import Phrasebook.Decimal.Notation
import Phrasebook.Markup.Tree
import Phrasebook.Markup.Render
import Phrasebook.Format.Message
import Phrasebook.Markup.NodeJson
import Phrasebook.Catalog.Store
import Phrasebook.Proofs.Plural.Soundness
import Phrasebook.Proofs.Plural.Completeness
import Phrasebook.Proofs.Plural.Acceptance
import Phrasebook.Proofs.Plural.Spelling
import Phrasebook.Proofs.Plural.Evaluation
import Phrasebook.Proofs.Plural.Printing
import Phrasebook.Proofs.Plural.Reparsing
import Phrasebook.Proofs.Plural.Nesting
import Phrasebook.Proofs.Plural.Arithmetic
import Phrasebook.Proofs.Plural.Locations
import Phrasebook.Proofs.Plural.Safety
import Phrasebook.Proofs.Plural.Obstacles
import Phrasebook.Proofs.Plural.Refusal
import Phrasebook.Proofs.Markup.Cut
import Phrasebook.Proofs.Markup.Mending
import Phrasebook.Proofs.Markup.Preorder
import Phrasebook.Proofs.Markup.Recovery
import Phrasebook.Proofs.Markup.Writing
import Phrasebook.Proofs.Markup.Folding
import Phrasebook.Proofs.Plural.Rejection
import Phrasebook.Proofs.Plural.Scanning
import Phrasebook.Proofs.Plural.Viability
import Phrasebook.Proofs.Plural.Frames
import Phrasebook.Proofs.Plural.Joining
import Phrasebook.Proofs.Plural.CanonicalNesting
import Phrasebook.Proofs.Plural.Renaming
import Phrasebook.Proofs.Format.ContentMap
import Phrasebook.Proofs.Format.Transparency
import Phrasebook.Proofs.Markup.Residue
import Phrasebook.Proofs.Catalog.Policy
import Phrasebook.Proofs.Format.Placeholders
import Phrasebook.Proofs.Catalog.Register
import Phrasebook.Proofs.Catalog.RoundTrip
import Phrasebook.Proofs.Plural.Writes
import Phrasebook.Proofs.Catalog.Answers
import Phrasebook.Proofs.Catalog.Coverage
import Phrasebook.Proofs.Plural.Lossless
import Phrasebook.Proofs.Tables
import Phrasebook.Proofs.Plural.Strict
import Phrasebook.Proofs.Catalog.Equality
import Phrasebook.Proofs.Format.Edits
import Phrasebook.Proofs.Markup.ForestJson
import Phrasebook.Proofs.Plural.Division
