import LazyConfig.Text.Scanner
import LazyConfig.Codec.Blob
import LazyConfig.Codec.Js64
import LazyConfig.Codec.Sha256
import LazyConfig.Number.Decimal
import LazyConfig.Number.Int128
import LazyConfig.Source.Grammar
import LazyConfig.Value.Cost
import LazyConfig.Value.Operation
import LazyConfig.Value.Printer
import LazyConfig.Engine.Store
import LazyConfig.Document.Eval
import LazyConfig.Diagnostic.Report
import LazyConfig.Session
import LazyConfig.Proofs.Engine.Quotas
import LazyConfig.Proofs.Source.Numerals
import LazyConfig.Proofs.Session.Requests
import LazyConfig.Proofs.Source.Words
import LazyConfig.Proofs.Source.Related
import LazyConfig.Proofs.Source.Bare
import LazyConfig.Proofs.Source.Writing
import LazyConfig.Proofs.Source.Reading
import LazyConfig.Proofs.Source.Layout
import LazyConfig.Proofs.Source.Printing
import LazyConfig.Proofs.Document.Constants
import LazyConfig.Proofs.Source.Literals
import LazyConfig.Proofs.Session.Constants
import LazyConfig.Proofs.Codec.Hex
import LazyConfig.Proofs.Session.ReadBack
import LazyConfig.Proofs.Number.Bits
import LazyConfig.Proofs.Number.Nearest
import LazyConfig.Proofs.Source.Json
import LazyConfig.Proofs.Session.JsonTexts
import LazyConfig.Proofs.Document.Definitions
import LazyConfig.Proofs.Document.Lexical
import LazyConfig.Proofs.Session.Lexical
import LazyConfig.Proofs.Source.Precedence
import LazyConfig.Proofs.Source.Separators
import LazyConfig.Proofs.Session.Headroom
import LazyConfig.Proofs.Document.Declared
import LazyConfig.Proofs.Session.Loading
import LazyConfig.Proofs.Document.Footing
import LazyConfig.Proofs.Document.Replay
import LazyConfig.Proofs.Session.Failures
import LazyConfig.Proofs.Engine.Contract
import LazyConfig.Proofs.Session.Includes
import LazyConfig.Proofs.Session.Nesting
import LazyConfig.Proofs.Source.Names
import LazyConfig.Proofs.Text.Scanner
import LazyConfig.Proofs.Source.Chains
import LazyConfig.Proofs.Source.Diagnostics
import LazyConfig.Proofs.Engine.Laziness
import LazyConfig.Proofs.Session.Objects
import LazyConfig.Proofs.Session.Located
import LazyConfig.Proofs.Session.Positions
import LazyConfig.Proofs.Value.Sharing
import LazyConfig.Proofs.Source.Extents
import LazyConfig.Proofs.Source.Bodies
import LazyConfig.Proofs.Source.Parenthesized
import LazyConfig.Proofs.Session.Renaming
import LazyConfig.Proofs.Codec.Canonical
import LazyConfig.Proofs.Text.Cursor
import LazyConfig.Proofs.Value.Arithmetic
import LazyConfig.Proofs.Value.Overriding
import LazyConfig.Proofs.Text.Pieces
import LazyConfig.Proofs.Value.Equalities
import LazyConfig.Proofs.Session.WholeNumbers
import LazyConfig.Proofs.Host.Containment
import LazyConfig.Proofs.Source.Hiding
import LazyConfig.Proofs.Source.Progress
