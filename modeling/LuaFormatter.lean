import LuaFormatter.Source.Lines
import LuaFormatter.Source.Blank
import LuaFormatter.Source.Gap
import LuaFormatter.Token.Scan
import LuaFormatter.Token.Bytes
import LuaFormatter.Tree.Node
import LuaFormatter.Tree.Outline
import LuaFormatter.Parse.State
import LuaFormatter.Parse.Program
import LuaFormatter.Doc.Outline
import LuaFormatter.Doc.Layout
import LuaFormatter.Comment.Attachment
import LuaFormatter.Format.Quote
import LuaFormatter.Format.Place
import LuaFormatter.Format.Boundary
import LuaFormatter.Format.Context
import LuaFormatter.Format.Program
import LuaFormatter.Command.Run
import LuaFormatter.Main
import LuaFormatter.Proofs.Layout.Trace
import LuaFormatter.Proofs.Layout.Words
import LuaFormatter.Proofs.Spelling.Slot
import LuaFormatter.Proofs.Spelling.Spell
import LuaFormatter.Proofs.Spelling.Composites
import LuaFormatter.Proofs.Spelling.Core
import LuaFormatter.Proofs.Spelling.Implement
import LuaFormatter.Proofs.Comment.LineEnds
import LuaFormatter.Proofs.Grammar.First
import LuaFormatter.Proofs.Grammar.ReplayExpression
import LuaFormatter.Proofs.Grammar.ReplayStatement
import LuaFormatter.Proofs.Token.Numbers
import LuaFormatter.Proofs.Token.Closing
import LuaFormatter.Proofs.Token.Reread
import LuaFormatter.Proofs.Token.Lookahead
import LuaFormatter.Proofs.Spelling.Literal
import LuaFormatter.Proofs.Spelling.Apart
import LuaFormatter.Proofs.Spelling.Paper
import LuaFormatter.Proofs.Spelling.Edges
import LuaFormatter.Proofs.Format.Skeleton
import LuaFormatter.Proofs.Grammar.Priority
import LuaFormatter.Proofs.Layout.Squeeze
import LuaFormatter.Proofs.Layout.Resolution
import LuaFormatter.Proofs.Layout.Conserve
import LuaFormatter.Proofs.Layout.Lines
import LuaFormatter.Proofs.Layout.Width
import LuaFormatter.Proofs.Token.Cover
import LuaFormatter.Proofs.Token.Ends
import LuaFormatter.Proofs.Format.Neat
import LuaFormatter.Proofs.Format.Uncommented
import LuaFormatter.Proofs.Format.Reflow
import LuaFormatter.Proofs.Token.Gaps
import LuaFormatter.Proofs.Grammar.Positions
import LuaFormatter.Proofs.Format.Canonical
import LuaFormatter.Proofs.Grammar.Numbering
import LuaFormatter.Proofs.Tree.Nodes
import LuaFormatter.Proofs.Tree.Spans
import LuaFormatter.Proofs.Comment.Attached
import LuaFormatter.Proofs.Comment.Blanked
import LuaFormatter.Proofs.Tree.Language
import LuaFormatter.Proofs.Grammar.EmptyParens
import LuaFormatter.Proofs.Comment.Room
import LuaFormatter.Proofs.Comment.Shown
import LuaFormatter.Proofs.Comment.Builders
import LuaFormatter.Proofs.Comment.Tidy
import LuaFormatter.Proofs.Comment.Once
import LuaFormatter.Proofs.Command.Effects
import LuaFormatter.Proofs.Spelling.Texts
import LuaFormatter.Proofs.Layout.Cosmetic
import LuaFormatter.Proofs.Format.Restyled
import LuaFormatter.Proofs.Format.Cosmetic
import LuaFormatter.Proofs.Layout.Spacing
import LuaFormatter.Proofs.Spelling.Roomy
import LuaFormatter.Proofs.Format.TidyLines
import LuaFormatter.Proofs.Tree.Kept
import LuaFormatter.Proofs.Tree.Words
import LuaFormatter.Proofs.Grammar.Keep
import LuaFormatter.Proofs.Grammar.KeepExpression
import LuaFormatter.Proofs.Grammar.KeepStatement
import LuaFormatter.Proofs.Grammar.Dropped
import LuaFormatter.Proofs.Spelling.Requote
import LuaFormatter.Proofs.Grammar.Parts
import LuaFormatter.Proofs.Layout.Cut
import LuaFormatter.Proofs.Spelling.Within
import LuaFormatter.Proofs.Comment.Slots
import LuaFormatter.Proofs.Format.Contiguous
import LuaFormatter.Proofs.Spelling.Start
import LuaFormatter.Proofs.Format.Brackets
import LuaFormatter.Proofs.Format.Separators
import LuaFormatter.Proofs.Comment.Sides
import LuaFormatter.Proofs.Format.Chains
import LuaFormatter.Proofs.Layout.Measure
import LuaFormatter.Proofs.Layout.Forced
import LuaFormatter.Proofs.Layout.Alongside
import LuaFormatter.Proofs.Format.HuggedSources
import LuaFormatter.Proofs.Source.Bytes
import LuaFormatter.Proofs.Token.Bytes
import LuaFormatter.Proofs.Source.Cuts
import LuaFormatter.Proofs.Source.Lines
import LuaFormatter.Proofs.Comment.Skipped
import LuaFormatter.Proofs.Comment.BlankLines
import LuaFormatter.Proofs.Grammar.FaultSpans
import LuaFormatter.Proofs.Report.Frame
import LuaFormatter.Proofs.Token.Spaced
import LuaFormatter.Proofs.Layout.Proceeds
import LuaFormatter.Proofs.Layout.Flat
import LuaFormatter.Proofs.Layout.FirstText
import LuaFormatter.Proofs.Format.Announced
import LuaFormatter.Proofs.Format.FlatGroups
import LuaFormatter.Proofs.Format.FirstText
import LuaFormatter.Proofs.Grammar.InStep
import LuaFormatter.Proofs.Grammar.InStepExpression
import LuaFormatter.Proofs.Grammar.InStepStatement
import LuaFormatter.Proofs.Grammar.Ends
import LuaFormatter.Proofs.Layout.Ends
import LuaFormatter.Proofs.Tree.Normal
import LuaFormatter.Proofs.Grammar.ReadsAs
import LuaFormatter.Proofs.Spelling.Wording
import LuaFormatter.Proofs.Spelling.Touching
import LuaFormatter.Proofs.Spelling.TouchExpression
import LuaFormatter.Proofs.Spelling.TouchStatement
import LuaFormatter.Proofs.Format.Reprint
import LuaFormatter.Proofs.Format.ReprintExpression
import LuaFormatter.Proofs.Format.ReprintStatement
import LuaFormatter.Proofs.Format.RoundTrip
