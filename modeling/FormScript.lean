import FormScript.Code
import FormScript.Command.About
import FormScript.Command.Account
import FormScript.Command.Dump
import FormScript.Command.Options
import FormScript.Command.Run
import FormScript.Compile
import FormScript.Diagnostic
import FormScript.Journal.Collector
import FormScript.Journal.Event
import FormScript.Journal.Keyed
import FormScript.Journal.Level
import FormScript.Journal.Record
import FormScript.Json
import FormScript.Limits
import FormScript.Main
import FormScript.Number.Binary64
import FormScript.Number.Reading
import FormScript.Number.Shortest
import FormScript.Preferences
import FormScript.Script.Error
import FormScript.Script.Names
import FormScript.Script.Write
import FormScript.Settings
import FormScript.Source.Bytes
import FormScript.Source.Load
import FormScript.Source.Size
import FormScript.Source.Tree
import FormScript.Text.Blank
import FormScript.Text.Hidden
import FormScript.Text.LineTable
import FormScript.Text.Lowercase
import FormScript.Text.Position
import FormScript.Text.Quoted
import FormScript.Token
import FormScript.Token.Error
import FormScript.Token.Lexeme
import FormScript.Token.Scan
import FormScript.Token.Stream
import FormScript.Token.Tally
import FormScript.Tree.Error
import FormScript.Tree.Node
import FormScript.Tree.Parse
import FormScript.Tree.Recipe
import FormScript.Tree.Tag
import FormScript.Vocabulary
import FormScript.Proofs.Location
import FormScript.Proofs.Reading
import FormScript.Proofs.Places
import FormScript.Proofs.Layout
import FormScript.Proofs.Grammar
import FormScript.Proofs.Recognition
import FormScript.Proofs.Acceptance
import FormScript.Proofs.Unclosed
import FormScript.Proofs.Printing
import FormScript.Proofs.RoundTrip
import FormScript.Proofs.Joining
import FormScript.Proofs.Refusal
import FormScript.Proofs.Scoping
import FormScript.Proofs.Resolution
import FormScript.Proofs.Wording
import FormScript.Proofs.Fallback
import FormScript.Proofs.Depth
import FormScript.Proofs.Indifference
import FormScript.Proofs.Brackets
import FormScript.Proofs.Delimited
import FormScript.Proofs.Fusing
import FormScript.Proofs.Dump
import FormScript.Proofs.Marked
import FormScript.Proofs.Comments
import FormScript.Proofs.CommentMarks
import FormScript.Proofs.Utf8
import FormScript.Proofs.Words
import FormScript.Proofs.Bytewise
import FormScript.Proofs.Bytewise.Lexemes
import FormScript.Proofs.Bytewise.Nesting
import FormScript.Proofs.Progress
import FormScript.Proofs.Collecting
import FormScript.Proofs.Extents
import FormScript.Proofs.Literals
import FormScript.Proofs.DottedNames
import FormScript.Proofs.Lines
import FormScript.Proofs.Counters
import FormScript.Proofs.Pragmas
import FormScript.Proofs.TopLevel
import FormScript.Proofs.Arguments
import FormScript.Proofs.RecordedStarts
import FormScript.Proofs.Recount
import FormScript.Proofs.ScopeGrowth
