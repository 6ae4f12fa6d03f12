import BmakeZig.Compile
import BmakeZig.Fault
import BmakeZig.Environment.Basic
import BmakeZig.Environment.Expand
import BmakeZig.Environment.Script
import BmakeZig.Interchange.Document
import BmakeZig.Interchange.Form
import BmakeZig.Interchange.Report
import BmakeZig.Interchange.Value
import BmakeZig.Note
import BmakeZig.Path
import BmakeZig.Proofs.Compile.Foresees
import BmakeZig.Proofs.Compile.Foresight
import BmakeZig.Proofs.Environment.Basic
import BmakeZig.Proofs.Environment.Expand
import BmakeZig.Proofs.Render.Plan
import BmakeZig.Proofs.Render.Safety
import BmakeZig.Proofs.Render.Straight
import BmakeZig.Proofs.Render.Value
import BmakeZig.Proofs.Source.Condition
import BmakeZig.Proofs.Source.Cursor
import BmakeZig.Proofs.Source.Outline
import BmakeZig.Proofs.Source.Placement.Block
import BmakeZig.Proofs.Source.Placement.Condition
import BmakeZig.Proofs.Source.Placement.Line
import BmakeZig.Proofs.Source.Placement.Phrase
import BmakeZig.Proofs.Source.Placement.Rule
import BmakeZig.Proofs.Source.Placement.Unit
import BmakeZig.Proofs.Source.RoundTrip.Condition
import BmakeZig.Proofs.Source.RoundTrip.Line
import BmakeZig.Proofs.Source.RoundTrip.Rule
import BmakeZig.Proofs.Source.RoundTrip.Unit
import BmakeZig.Proofs.Source.Sentence
import BmakeZig.Proofs.Source.Shape
import BmakeZig.Proofs.Source.Words
import BmakeZig.Proofs.Text.Cuts
import BmakeZig.Proofs.Text.Lines
import BmakeZig.Proofs.Tree.Placement
import BmakeZig.Proofs.Tree.Shape
import BmakeZig.Proofs.Value.Fragment
import BmakeZig.Proofs.Zig.Evaluate
import BmakeZig.Proofs.Zig.Reading
import BmakeZig.Proofs.Zig.Run
import BmakeZig.Render.Branch
import BmakeZig.Render.Inclusion
import BmakeZig.Render.Pass
import BmakeZig.Render.Statement
import BmakeZig.Render.Tree
import BmakeZig.Render.Value
import BmakeZig.Settings
import BmakeZig.Source.Block
import BmakeZig.Source.Condition
import BmakeZig.Source.Cursor
import BmakeZig.Source.Directive
import BmakeZig.Source.Phrase
import BmakeZig.Source.Rule
import BmakeZig.Source.Statement
import BmakeZig.Source.Unit
import BmakeZig.Text.Basic
import BmakeZig.Tree.Node
import BmakeZig.Units.FileTree
import BmakeZig.Units.Library
import BmakeZig.Value.Fragment
import BmakeZig.Zig.Program
import BmakeZig.Zig.Name
import BmakeZig.Proofs.Value.Canonical
import BmakeZig.Proofs.Render.Phrase
import BmakeZig.Proofs.Zig.Formula
import BmakeZig.Proofs.Render.Condition
import BmakeZig.Proofs.Zig.Closed
import BmakeZig.Proofs.Render.OneLine
import BmakeZig.Proofs.Render.Closed
import BmakeZig.Proofs.Compile.Closed
import BmakeZig.Proofs.Render.Moment
import BmakeZig.Proofs.Render.Change
import BmakeZig.Proofs.Compile.Nesting
import BmakeZig.Proofs.Render.Heeded
import BmakeZig.Proofs.Compile.Stored
import BmakeZig.Proofs.Text.Sorted
import BmakeZig.Proofs.Zig.Access
import BmakeZig.Proofs.Zig.Woven
import BmakeZig.Proofs.Render.Woven
import BmakeZig.Proofs.Render.Splice
import BmakeZig.Proofs.Compile.Remarks
import BmakeZig.Proofs.Compile.Quiet
import BmakeZig.Proofs.Compile.Declared
import BmakeZig.Proofs.Text.Trails
import BmakeZig.Proofs.Tree.Like
import BmakeZig.Proofs.Source.Echo.Phrase
import BmakeZig.Proofs.Source.Echo.Condition
import BmakeZig.Proofs.Source.Echo.Line
import BmakeZig.Proofs.Source.Echo.Cursor
import BmakeZig.Proofs.Source.Echo.Rule
import BmakeZig.Proofs.Source.Echo.Block
import BmakeZig.Proofs.Source.Echo.Unit
import BmakeZig.Proofs.Source.Append.Balance
import BmakeZig.Proofs.Source.Append.Extend
import BmakeZig.Proofs.Source.Append.Unit
import BmakeZig.Proofs.Zig.Endings
import BmakeZig.Proofs.Render.Endings
import BmakeZig.Proofs.Compile.Endings
import BmakeZig.Proofs.Source.Grammar
import BmakeZig.Proofs.Value.Inert
import BmakeZig.Proofs.Render.Separator
import BmakeZig.Proofs.Render.Naming
import BmakeZig.Proofs.Source.Recovery.Walk
import BmakeZig.Proofs.Source.Recovery.Ending
import BmakeZig.Proofs.Environment.Reference
import BmakeZig.Proofs.Environment.Descent
import BmakeZig.Proofs.Render.Expanding
import BmakeZig.Proofs.Compile.Frozen
import BmakeZig.Proofs.Zig.Decoded
import BmakeZig.Proofs.Path.Walk
import BmakeZig.Proofs.Render.Lookup
import BmakeZig.Proofs.Source.Watched.Head
import BmakeZig.Proofs.Source.Watched.Phrase
import BmakeZig.Proofs.Source.Watched.Condition
import BmakeZig.Proofs.Source.Watched.Line
import BmakeZig.Proofs.Source.Watched.Rule
import BmakeZig.Proofs.Source.Watched.Block
import BmakeZig.Proofs.Source.Watched.Unit
