import Circuitry.Bits
import Circuitry.Calendar
import Circuitry.Cli.Arguments
import Circuitry.Cli.Files
import Circuitry.Cli.Run
import Circuitry.Compiler
import Circuitry.Conversion.Country
import Circuitry.Conversion.Error
import Circuitry.Conversion.Field
import Circuitry.Conversion.Graph
import Circuitry.Conversion.Link
import Circuitry.Conversion.Node
import Circuitry.Conversion.Raw
import Circuitry.Conversion.Value
import Circuitry.Input.Call
import Circuitry.Input.Reference
import Circuitry.Input.Values
import Circuitry.Json.Basic
import Circuitry.Json.Double
import Circuitry.Json.Reader
import Circuitry.Json.Token
import Circuitry.Json.Writer
import Circuitry.Keyed
import Circuitry.Main
import Circuitry.Path
import Circuitry.Program.Command
import Circuitry.Program.Constant
import Circuitry.Program.Document
import Circuitry.Program.Error
import Circuitry.Program.Identifier
import Circuitry.Program.Target
import Circuitry.Program.Variable
import Circuitry.Proofs.Agreement
import Circuitry.Proofs.Calendar
import Circuitry.Proofs.CallInput
import Circuitry.Proofs.CallTree
import Circuitry.Proofs.Capture
import Circuitry.Proofs.Country
import Circuitry.Proofs.Data
import Circuitry.Proofs.Decoding
import Circuitry.Proofs.Denotation
import Circuitry.Proofs.Descent
import Circuitry.Proofs.Doubles
import Circuitry.Proofs.Escaping
import Circuitry.Proofs.Encoding
import Circuitry.Proofs.Exactness
import Circuitry.Proofs.Expression
import Circuitry.Proofs.Fallible
import Circuitry.Proofs.Following
import Circuitry.Proofs.Grammar
import Circuitry.Proofs.Graph
import Circuitry.Proofs.InputFailure
import Circuitry.Proofs.Leaves
import Circuitry.Proofs.Legibility
import Circuitry.Proofs.Lexing
import Circuitry.Proofs.Limits
import Circuitry.Proofs.LiteralForms
import Circuitry.Proofs.LiteralText
import Circuitry.Proofs.Markup
import Circuitry.Proofs.Names
import Circuitry.Proofs.Nesting
import Circuitry.Proofs.NumberText
import Circuitry.Proofs.Numerals
import Circuitry.Proofs.Ownership
import Circuitry.Proofs.Partition
import Circuitry.Proofs.Positions
import Circuitry.Proofs.RawLiteral
import Circuitry.Proofs.Reading
import Circuitry.Proofs.Regular
import Circuitry.Proofs.Reordering
import Circuitry.Proofs.Resolution
import Circuitry.Proofs.Reversal
import Circuitry.Proofs.RoundTrip
import Circuitry.Proofs.Schema
import Circuitry.Proofs.Scope
import Circuitry.Proofs.Script
import Circuitry.Proofs.Shortening
import Circuitry.Proofs.Signature
import Circuitry.Proofs.Source
import Circuitry.Proofs.Splicing
import Circuitry.Proofs.StaticLiteral
import Circuitry.Proofs.Storing
import Circuitry.Proofs.Swapping
import Circuitry.Proofs.Targets
import Circuitry.Proofs.Template
import Circuitry.Proofs.Tree
import Circuitry.Proofs.Typing
import Circuitry.Proofs.WellFormed
import Circuitry.Proofs.Written
import Circuitry.Source.Basic
import Circuitry.Source.Command
import Circuitry.Source.Expr
import Circuitry.Source.Layout
import Circuitry.Source.Literal
import Circuitry.Source.Names
import Circuitry.Source.Template
import Circuitry.Source.Types
import Circuitry.Text.Blank
import Circuitry.Text.Hex
import Circuitry.Text.Quoted
import Circuitry.Text.Utf8
import Circuitry.Text.Visible
import Circuitry.Tree.Basic
import Circuitry.Tree.InPlace
import Circuitry.Tree.Json
import Circuitry.Proofs.Placement
import Circuitry.Proofs.ByteOrder
import Circuitry.Proofs.Enumeration
import Circuitry.Proofs.Naming
import Circuitry.Proofs.Residue
import Circuitry.Proofs.Spreading
import Circuitry.Proofs.FieldBytes
import Circuitry.Proofs.CircuitText
import Circuitry.Proofs.Instants
import Circuitry.Proofs.CountryChains
import Circuitry.Proofs.Files
