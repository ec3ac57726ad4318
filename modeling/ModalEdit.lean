import ModalEdit.Action
import ModalEdit.Command.Basic
import ModalEdit.Command.Operator
import ModalEdit.Command.Paste
import ModalEdit.Command.Typing
import ModalEdit.CommandLine.Arguments
import ModalEdit.CommandLine.FileTree
import ModalEdit.CommandLine.Replay
import ModalEdit.Config.Binding
import ModalEdit.Config.File
import ModalEdit.Decimal.Double
import ModalEdit.Decimal.Shortest
import ModalEdit.Editor
import ModalEdit.Engine
import ModalEdit.Key.Basic
import ModalEdit.Key.Script
import ModalEdit.Keymap
import ModalEdit.Main
import ModalEdit.Mode
import ModalEdit.Pattern.Basic
import ModalEdit.Pattern.CharSet
import ModalEdit.Pattern.Expression
import ModalEdit.Pattern.ExpressionText
import ModalEdit.Pattern.SetText
import ModalEdit.Placement
import ModalEdit.Proofs.Action.Acts
import ModalEdit.Proofs.Action.Call
import ModalEdit.Proofs.Action.Extend
import ModalEdit.Proofs.Action.Home
import ModalEdit.Proofs.Action.Invariant
import ModalEdit.Proofs.Action.SelectObject
import ModalEdit.Proofs.Action.Waits
import ModalEdit.Proofs.Command.Batch
import ModalEdit.Proofs.Command.Column
import ModalEdit.Proofs.Command.Guards
import ModalEdit.Proofs.Command.Invariant
import ModalEdit.Proofs.Command.LinePaste
import ModalEdit.Proofs.Command.Lines
import ModalEdit.Proofs.Command.Pairing
import ModalEdit.Proofs.Command.Paste
import ModalEdit.Proofs.Command.PasteOver
import ModalEdit.Proofs.Command.Replace
import ModalEdit.Proofs.Command.Rest
import ModalEdit.Proofs.Command.Typing
import ModalEdit.Proofs.CommandLine.Breaks
import ModalEdit.Proofs.Config.Entries
import ModalEdit.Proofs.Config.Entry
import ModalEdit.Proofs.Engine.Bindings
import ModalEdit.Proofs.Engine.Column
import ModalEdit.Proofs.Engine.Dispatch
import ModalEdit.Proofs.Engine.Edits
import ModalEdit.Proofs.Engine.FindAgain
import ModalEdit.Proofs.Engine.Frame
import ModalEdit.Proofs.Engine.Handed
import ModalEdit.Proofs.Engine.Lines
import ModalEdit.Proofs.Engine.Motion
import ModalEdit.Proofs.Engine.Operator
import ModalEdit.Proofs.Engine.OperatorOrder
import ModalEdit.Proofs.Engine.PasteOrder
import ModalEdit.Proofs.Engine.Pending
import ModalEdit.Proofs.Engine.Rest
import ModalEdit.Proofs.Engine.RoundTrip
import ModalEdit.Proofs.Engine.Run
import ModalEdit.Proofs.Engine.Shorthand
import ModalEdit.Proofs.Engine.SwapEnds
import ModalEdit.Proofs.Engine.Typing
import ModalEdit.Proofs.Engine.UsesUp
import ModalEdit.Proofs.Engine.VisualOperator
import ModalEdit.Proofs.Key.Canonical
import ModalEdit.Proofs.Key.NormalForm
import ModalEdit.Proofs.Key.RoundTrip
import ModalEdit.Proofs.Operator.Clash
import ModalEdit.Proofs.Operator.Cursors
import ModalEdit.Proofs.Operator.Lines
import ModalEdit.Proofs.Operator.Merge
import ModalEdit.Proofs.Operator.Order
import ModalEdit.Proofs.Operator.Orderly
import ModalEdit.Proofs.Operator.Origin
import ModalEdit.Proofs.Operator.Pieces
import ModalEdit.Proofs.Operator.Ranges
import ModalEdit.Proofs.Operator.Removal
import ModalEdit.Proofs.Operator.RoundTrip
import ModalEdit.Proofs.Pattern.Exact
import ModalEdit.Proofs.Pattern.Expression
import ModalEdit.Proofs.Pattern.KeyByKey
import ModalEdit.Proofs.Pattern.Keys
import ModalEdit.Proofs.Pattern.SourceText
import ModalEdit.Proofs.Register
import ModalEdit.Proofs.Selection.Cover
import ModalEdit.Proofs.Selection.Extent
import ModalEdit.Proofs.Selection.Recall
import ModalEdit.Proofs.Selection.Swap
import ModalEdit.Proofs.Session.Invariant
import ModalEdit.Proofs.Span.Around
import ModalEdit.Proofs.Span.Bounds
import ModalEdit.Proofs.Span.Called
import ModalEdit.Proofs.Span.Clamped
import ModalEdit.Proofs.Span.Element
import ModalEdit.Proofs.Span.Quotes
import ModalEdit.Proofs.Span.Tag
import ModalEdit.Proofs.Span.WholeLines
import ModalEdit.Proofs.Step
import ModalEdit.Proofs.Text.Accepted
import ModalEdit.Proofs.Text.Balance
import ModalEdit.Proofs.Text.Bracket
import ModalEdit.Proofs.Text.Characters
import ModalEdit.Proofs.Text.Contents
import ModalEdit.Proofs.Text.Coordinates
import ModalEdit.Proofs.Text.Copies
import ModalEdit.Proofs.Text.Correspondence
import ModalEdit.Proofs.Text.Follow
import ModalEdit.Proofs.Text.Insertions
import ModalEdit.Proofs.Text.Lines
import ModalEdit.Proofs.Text.Overwrite
import ModalEdit.Proofs.Text.Pick
import ModalEdit.Proofs.Text.Plan
import ModalEdit.Proofs.Text.Rebuild
import ModalEdit.Proofs.Text.Run
import ModalEdit.Proofs.Text.Splice
import ModalEdit.Proofs.Text.Tokens
import ModalEdit.Proofs.Text.Words
import ModalEdit.Proofs.TwoRuns
import ModalEdit.Proofs.Walk.Bounds
import ModalEdit.Proofs.Walk.Find
import ModalEdit.Proofs.Walk.Nearest
import ModalEdit.Proofs.Walk.Stops
import ModalEdit.Register
import ModalEdit.Selection.Basic
import ModalEdit.Selection.Extent
import ModalEdit.Session
import ModalEdit.Span.Basic
import ModalEdit.Span.Tag
import ModalEdit.Span.TextObject
import ModalEdit.State
import ModalEdit.Text.Bracket
import ModalEdit.Text.Document
import ModalEdit.Text.Edit
import ModalEdit.Text.Lines
import ModalEdit.Text.Numeral
import ModalEdit.Text.Position
import ModalEdit.Text.Run
import ModalEdit.Toml.Moment
import ModalEdit.Toml.Number
import ModalEdit.Toml.Printer
import ModalEdit.Toml.Quoted
import ModalEdit.Toml.Section
import ModalEdit.Toml.Text
import ModalEdit.Toml.Value
import ModalEdit.Unicode.Alphabetic
import ModalEdit.Unicode.CaseFold
import ModalEdit.Unicode.Mark
import ModalEdit.Unicode.Numeric
import ModalEdit.Unicode.Property
import ModalEdit.Unicode.WhiteSpace
import ModalEdit.Walk.Find
import ModalEdit.Walk.Motion
import ModalEdit.Walk.Step
import ModalEdit.Walk.Word
