import Asm8.Assembly
import Asm8.Command.FileTree
import Asm8.Command.Host
import Asm8.Command.Options
import Asm8.Command.Run
import Asm8.Diagnostic
import Asm8.Encoder.State
import Asm8.Encoder.Step
import Asm8.Image
import Asm8.Isa.Builtin
import Asm8.Isa.Group
import Asm8.Isa.Register
import Asm8.Isa.Shape
import Asm8.Isa.Table
import Asm8.Link
import Asm8.Main
import Asm8.Operand.Candidates
import Asm8.Operand.Class
import Asm8.Proofs.Matching
import Asm8.Proofs.Replay
import Asm8.Proofs.Statement
import Asm8.Report.Dump
import Asm8.Report.Excerpt
import Asm8.Report.Json
import Asm8.Report.Listing
import Asm8.Report.Style
import Asm8.Source.Lexer
import Asm8.Source.Literal
import Asm8.Source.Name
import Asm8.Source.Token
import Asm8.Symbol
import Asm8.Text.Blank
import Asm8.Text.Hex
import Asm8.Text.Lines
import Asm8.Text.Upper
import Asm8.Proofs.Tracking
import Asm8.Proofs.Encoding
import Asm8.Proofs.Linking
import Asm8.Proofs.LineTokens
import Asm8.Proofs.Language
import Asm8.Proofs.Assembled
import Asm8.Proofs.References
import Asm8.Proofs.Readings
import Asm8.Proofs.Remainder
import Asm8.Proofs.Opcodes
import Asm8.Proofs.Numerals
import Asm8.Proofs.Sections
import Asm8.Proofs.Layout
import Asm8.Proofs.Coherence
import Asm8.Proofs.Relocation
import Asm8.Proofs.Faults
import Asm8.Proofs.Tables
import Asm8.Proofs.Variants
import Asm8.Proofs.RowOrder
import Asm8.Proofs.Segments
import Asm8.Proofs.Rendering
import Asm8.Proofs.Excerpts
import Asm8.Proofs.LineEnds
import Asm8.Proofs.Resolution
import Asm8.Proofs.Printing
import Asm8.Proofs.Listings
import Asm8.Proofs.Decoding
import Asm8.Proofs.Operands
import Asm8.Proofs.Stream
import Asm8.Proofs.OneStatement
import Asm8.Proofs.Truncation
import Asm8.Proofs.History
import Asm8.Proofs.UpperCase
import Asm8.Proofs.TableText
import Asm8.Proofs.Places
import Asm8.Proofs.Courses
import Asm8.Proofs.Lookup
import Asm8.Proofs.Progress
