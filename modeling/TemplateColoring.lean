import TemplateColoring.Bytes.Ascii
import TemplateColoring.Bytes.Walk
import TemplateColoring.Bytes.Reader
import TemplateColoring.Template
import TemplateColoring.Expression.Lexeme
import TemplateColoring.Region.Basic
import TemplateColoring.Region.Opening
import TemplateColoring.Region.Closing
import TemplateColoring.Region.Scanner
import TemplateColoring.Region.Scan
import TemplateColoring.Token.Region
import TemplateColoring.Region.Restart
import TemplateColoring.Region.AtCursor
import TemplateColoring.Region.Map
import TemplateColoring.Region.Revision
import TemplateColoring.Token.Paint
import TemplateColoring.Token.Pool
import TemplateColoring.Recognition.Document
import TemplateColoring.Session.Basic
import TemplateColoring.Benchmark.Report
import TemplateColoring.Benchmark.Run
import TemplateColoring.Proofs.Bytes.Classes
import TemplateColoring.Proofs.Bytes.Rest
import TemplateColoring.Proofs.Bytes.Lookahead
import TemplateColoring.Proofs.Expression.Item
import TemplateColoring.Proofs.Expression.Lookahead
import TemplateColoring.Proofs.Region.Opening
import TemplateColoring.Proofs.Region.Lookahead
import TemplateColoring.Proofs.Span.Tiling
import TemplateColoring.Proofs.Region.Scan
import TemplateColoring.Proofs.Region.Scanner
import TemplateColoring.Proofs.Region.Map
import TemplateColoring.Proofs.Bytes.Characters
import TemplateColoring.Proofs.Expression.Characters
import TemplateColoring.Proofs.Region.AtCursor
import TemplateColoring.Proofs.Region.Characters
import TemplateColoring.Proofs.Region.LeftmostFirst
import TemplateColoring.Proofs.Region.Alone
import TemplateColoring.Proofs.Region.Append
import TemplateColoring.Proofs.Expression.Lexeme
import TemplateColoring.Proofs.Token.Basic
import TemplateColoring.Proofs.Token.Expression
import TemplateColoring.Proofs.Region.Calls
import TemplateColoring.Proofs.Token.Total
import TemplateColoring.Proofs.Token.Append
import TemplateColoring.Proofs.Token.Markup
import TemplateColoring.Proofs.Token.Repaint
import TemplateColoring.Proofs.Session.Cache
import TemplateColoring.Proofs.Session.Highlight
import TemplateColoring.Proofs.Region.CutShort
import TemplateColoring.Proofs.Token.EndTag
import TemplateColoring.Proofs.Span.Search
import TemplateColoring.Proofs.Region.Restart
import TemplateColoring.Proofs.Token.Characters
import TemplateColoring.Proofs.Token.Pool
import TemplateColoring.Proofs.Region.Revision
import TemplateColoring.Proofs.Region.Report
import TemplateColoring.Proofs.Session.Tally
import TemplateColoring.Proofs.Text.Blank
import TemplateColoring.Proofs.Text.Search
import TemplateColoring.Proofs.Text.Lossy
import TemplateColoring.Proofs.Recognition.Feed
import TemplateColoring.Proofs.Recognition.Tidy
import TemplateColoring.Proofs.Recognition.Header
import TemplateColoring.Proofs.Recognition.Front
import TemplateColoring.Proofs.Edit.Smallest
import TemplateColoring.Proofs.Token.Neighbours
import TemplateColoring.Proofs.Bytes.Search
import TemplateColoring.Proofs.Recognition.RoundTrip
import TemplateColoring.Proofs.Text.Ending
import TemplateColoring.Proofs.Recognition.Lines
import TemplateColoring.Proofs.Recognition.Escape
import TemplateColoring.Proofs.Recognition.Continuation
import TemplateColoring.Proofs.Expression.Literal
import TemplateColoring.Proofs.Region.Exclusive
import TemplateColoring.Proofs.Session.History
import TemplateColoring.Proofs.Bytes.Step
import TemplateColoring.Proofs.Expression.Agrees
import TemplateColoring.Proofs.Expression.Lexer
import TemplateColoring.Proofs.Expression.Unclosed
import TemplateColoring.Proofs.Expression.Ends
import TemplateColoring.Proofs.Region.Rule
import TemplateColoring.Proofs.Region.Sweep
import TemplateColoring.Proofs.Region.Contract
import TemplateColoring.Proofs.Token.Sink
import TemplateColoring.Proofs.Token.Drawing
import TemplateColoring.Proofs.Token.Paint
import TemplateColoring.Proofs.Token.Range
import TemplateColoring.Proofs.Bytes.Reader
import TemplateColoring.Proofs.Region.Comment
