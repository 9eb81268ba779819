import PioFrontEnd.Compilation
import PioFrontEnd.Diagnostic
import PioFrontEnd.Draft.Basic
import PioFrontEnd.Draft.Evaluation
import PioFrontEnd.Expr.Basic
import PioFrontEnd.Expr.Operator
import PioFrontEnd.Expr.Printing
import PioFrontEnd.Expr.Reading
import PioFrontEnd.File
import PioFrontEnd.LineBreaks
import PioFrontEnd.Listing.Basic
import PioFrontEnd.Listing.Printing
import PioFrontEnd.NameTable
import PioFrontEnd.Proofs.Blanks
import PioFrontEnd.Proofs.ByName.Agreement
import PioFrontEnd.Proofs.ByName.Basic
import PioFrontEnd.Proofs.ByName.Lines
import PioFrontEnd.Proofs.ByName.Relocation
import PioFrontEnd.Proofs.ByName.Salvage
import PioFrontEnd.Proofs.ByName.Simulation
import PioFrontEnd.Proofs.ByName.Texts
import PioFrontEnd.Proofs.Canonical.Growth
import PioFrontEnd.Proofs.Canonical.Lexing
import PioFrontEnd.Proofs.Canonical.Lines
import PioFrontEnd.Proofs.Canonical.Products
import PioFrontEnd.Proofs.Canonical.Recovery
import PioFrontEnd.Proofs.Canonical.Rereading
import PioFrontEnd.Proofs.Canonical.Shape
import PioFrontEnd.Proofs.Canonical.Survival
import PioFrontEnd.Proofs.Draft.Consistency
import PioFrontEnd.Proofs.Draft.Invariants
import PioFrontEnd.Proofs.Draft.Meanings
import PioFrontEnd.Proofs.Draft.Reachability
import PioFrontEnd.Proofs.Draft.Refusal
import PioFrontEnd.Proofs.Draft.Twins
import PioFrontEnd.Proofs.Evaluation.Caching
import PioFrontEnd.Proofs.Evaluation.Transparency
import PioFrontEnd.Proofs.Evaluation.Uncached
import PioFrontEnd.Proofs.Exact.Constants
import PioFrontEnd.Proofs.Exact.Operators
import PioFrontEnd.Proofs.Exact.Script
import PioFrontEnd.Proofs.Exchange
import PioFrontEnd.Proofs.FirstFault
import PioFrontEnd.Proofs.Grammar.Advance
import PioFrontEnd.Proofs.Grammar.Derivation
import PioFrontEnd.Proofs.Grammar.FirstMisfit
import PioFrontEnd.Proofs.Grammar.Phrase
import PioFrontEnd.Proofs.Grammar.Viability
import PioFrontEnd.Proofs.Isolation
import PioFrontEnd.Proofs.LexicalFaults
import PioFrontEnd.Proofs.LineBreaks
import PioFrontEnd.Proofs.Listing
import PioFrontEnd.Proofs.LogicalLines
import PioFrontEnd.Proofs.NameTable
import PioFrontEnd.Proofs.PhysicalLines
import PioFrontEnd.Proofs.Reading
import PioFrontEnd.Proofs.Reassociation
import PioFrontEnd.Proofs.Regeneration
import PioFrontEnd.Proofs.Resumption
import PioFrontEnd.Proofs.SelfContained
import PioFrontEnd.Proofs.Session
import PioFrontEnd.Proofs.Token.Boundary
import PioFrontEnd.Proofs.Token.BytePositions
import PioFrontEnd.Proofs.Token.Comments
import PioFrontEnd.Proofs.Token.Composition
import PioFrontEnd.Proofs.Token.Continuation
import PioFrontEnd.Proofs.Token.Drawing
import PioFrontEnd.Proofs.Token.Lossless
import PioFrontEnd.Proofs.Token.Maximality
import PioFrontEnd.Proofs.Token.Names
import PioFrontEnd.Proofs.Token.Positions
import PioFrontEnd.Proofs.Token.Spelling
import PioFrontEnd.Scopes
import PioFrontEnd.Span
import PioFrontEnd.Statement
import PioFrontEnd.Text.Basic
import PioFrontEnd.Text.CodePoints
import PioFrontEnd.Text.Decimal
import PioFrontEnd.Text.Extenders
import PioFrontEnd.Text.Graphic
import PioFrontEnd.Text.Ignorable
import PioFrontEnd.Text.Letters
import PioFrontEnd.Text.Numerals
import PioFrontEnd.Text.Quoted
import PioFrontEnd.Token.Basic
import PioFrontEnd.Token.Front
import PioFrontEnd.Token.Inventory
import PioFrontEnd.Token.Line
import PioFrontEnd.Token.Stream
import PioFrontEnd.Token.Words
