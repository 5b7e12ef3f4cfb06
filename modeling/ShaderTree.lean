import ShaderTree.Ast.Declarator
import ShaderTree.Ast.DocComment
import ShaderTree.Ast.Expression
import ShaderTree.Ast.Item
import ShaderTree.Ast.Parts
import ShaderTree.Ast.Statement
import ShaderTree.Ast.TypeRef
import ShaderTree.Diagnostic.Basic
import ShaderTree.Diagnostic.Code
import ShaderTree.Diagnostic.Enclosure
import ShaderTree.Fault
import ShaderTree.Grammar.Basic
import ShaderTree.Grammar.Error
import ShaderTree.Grammar.First
import ShaderTree.Grammar.Validity
import ShaderTree.IndexSet
import ShaderTree.Json.Pointer
import ShaderTree.Json.Printer
import ShaderTree.Json.Reader
import ShaderTree.Json.Value
import ShaderTree.Kind
import ShaderTree.Language
import ShaderTree.Lexeme.Basic
import ShaderTree.Lexeme.Number
import ShaderTree.Lexeme.Word
import ShaderTree.Metal.Grammar
import ShaderTree.Parser.Config
import ShaderTree.Parser.Relex
import ShaderTree.Parser.Reparse
import ShaderTree.Parser.Reuse
import ShaderTree.Parser.Run
import ShaderTree.Parser.Step
import ShaderTree.Repair
import ShaderTree.Session
import ShaderTree.Table.Artifact
import ShaderTree.Table.Automaton
import ShaderTree.Table.Basic
import ShaderTree.Table.Build
import ShaderTree.Table.Compatible
import ShaderTree.Table.Conflict
import ShaderTree.Table.Lookahead
import ShaderTree.Text.Blank
import ShaderTree.Text.ByteRange
import ShaderTree.Text.Bytes
import ShaderTree.Text.Edit
import ShaderTree.Text.EditMap
import ShaderTree.Text.LineIndex
import ShaderTree.Text.Position
import ShaderTree.Text.Quoted
import ShaderTree.Text.Unprinted
import ShaderTree.Token
import ShaderTree.Token.Reader
import ShaderTree.Tree.Basic
import ShaderTree.Tree.Document
import ShaderTree.Tree.Printer
import ShaderTree.Tree.Site
import ShaderTree.Proofs.Lexeme.Locality
import ShaderTree.Proofs.Lexeme.Boundary
import ShaderTree.Proofs.Lexeme.Kinds
import ShaderTree.Proofs.Token.Layout
import ShaderTree.Proofs.Token.Restart
import ShaderTree.Proofs.Text.Alignment
import ShaderTree.Proofs.Text.Lines
import ShaderTree.Proofs.Tree.Leaves
import ShaderTree.Proofs.Parser.Relex
import ShaderTree.Proofs.Parser.Moves
import ShaderTree.Proofs.Parser.Conservation
import ShaderTree.Proofs.Table.Rows
import ShaderTree.Proofs.Table.StartRule
import ShaderTree.Proofs.Parser.History
import ShaderTree.Proofs.Parser.Lossless
import ShaderTree.Proofs.Table.Automaton
import ShaderTree.Proofs.Table.Items
import ShaderTree.Proofs.Grammar.Expansion
import ShaderTree.Proofs.Parser.Viable
import ShaderTree.Proofs.Table.Sets
import ShaderTree.Proofs.Table.Spread
import ShaderTree.Proofs.Table.Exploration
import ShaderTree.Proofs.Table.Propagation
import ShaderTree.Table.Drive
import ShaderTree.Proofs.Grammar.Derivation
import ShaderTree.Proofs.Grammar.First
import ShaderTree.Proofs.Grammar.Corners
import ShaderTree.Proofs.Table.Drive
import ShaderTree.Proofs.Table.Columns
import ShaderTree.Proofs.Table.Completeness
import ShaderTree.Proofs.Table.Conflicts
import ShaderTree.Proofs.Table.Chains
import ShaderTree.Proofs.Parser.Spelled
import ShaderTree.Proofs.Parser.Termination
import ShaderTree.Proofs.Parser.Progress
import ShaderTree.Proofs.Bits
import ShaderTree.Proofs.Grammar.Validity
import ShaderTree.Proofs.Table.Existence
import ShaderTree.Proofs.Table.Ahead
import ShaderTree.Proofs.Table.Meetings
import ShaderTree.Proofs.Table.EndOfInput
import ShaderTree.Proofs.Metal.Table
import ShaderTree.Proofs.Parser.Conformance
import ShaderTree.Proofs.Parser.Safety
import ShaderTree.Proofs.Grammar.Productivity
import ShaderTree.Proofs.Table.Prefixes
import ShaderTree.Proofs.Json.RoundTrip
import ShaderTree.Proofs.Table.Artifact
import ShaderTree.Proofs.Metal.Acceptance
import ShaderTree.Proofs.Grammar.FirstWords
import ShaderTree.Proofs.Table.Canonical
import ShaderTree.Proofs.Parser.Mismatch
import ShaderTree.Proofs.Parser.Bound
import ShaderTree.Proofs.Parser.Errorfree
import ShaderTree.Proofs.Parser.Keeping
import ShaderTree.Proofs.Tree.Ranges
import ShaderTree.Proofs.Parser.Placed
import ShaderTree.Proofs.Parser.Faultless
import ShaderTree.Proofs.Parser.Repairs
import ShaderTree.Proofs.Parser.Accounts
import ShaderTree.Proofs.Parser.Unspaced
import ShaderTree.Proofs.Parser.Mirrored
import ShaderTree.Proofs.Parser.Tight
import ShaderTree.Proofs.Parser.Beside
import ShaderTree.Proofs.Parser.Transparency
import ShaderTree.Proofs.Table.Paths
import ShaderTree.Proofs.Metal.Blanks
import ShaderTree.Proofs.Text.Origins
import ShaderTree.Proofs.Table.Settling
import ShaderTree.Proofs.Parser.Foresight
import ShaderTree.Proofs.Parser.Headway
import ShaderTree.Proofs.Parser.Replay
import ShaderTree.Proofs.Parser.ErrorTokens
import ShaderTree.Proofs.Parser.ScanErrors
import ShaderTree.Proofs.Parser.Openings
import ShaderTree.Proofs.Metal.Casts
import ShaderTree.Proofs.Parser.Readings
import ShaderTree.Proofs.Parser.Operands
import ShaderTree.Proofs.Parser.Quiet
import ShaderTree.Proofs.Metal.Precedence
import ShaderTree.Proofs.Metal.Steadiness
import ShaderTree.Proofs.Parser.Alike
import ShaderTree.Proofs.Parser.Incremental
import ShaderTree.Proofs.Metal.Incremental
import ShaderTree.Proofs.Parser.Beginnings
import ShaderTree.Proofs.Parser.Items
import ShaderTree.Proofs.Metal.Plans
import ShaderTree.Proofs.Metal.Sharing
import ShaderTree.Proofs.Metal.Documents
import ShaderTree.Proofs.Parser.Provenance
import ShaderTree.Proofs.Metal.Records
import ShaderTree.Proofs.Text.LineColumns
import ShaderTree.Proofs.Token.Tiling
import ShaderTree.Proofs.Parser.Trim
import ShaderTree.Proofs.Grammar.Usability
import ShaderTree.Proofs.Table.Termination
import ShaderTree.Proofs.Ast.Parts
import ShaderTree.Proofs.Ast.Phrases
import ShaderTree.Proofs.Ast.Marks
import ShaderTree.Proofs.Ast.Expression
import ShaderTree.Proofs.Ast.Statement
import ShaderTree.Proofs.Ast.Declarator
