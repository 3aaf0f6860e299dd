import CssTree.Token.Printer
import CssTree.Token.Reader
import CssTree.Tree.Validity
import CssTree.Tree.Walk
import CssTree.Edit.Mutation
import CssTree.Proofs.Text.Advance
import CssTree.Proofs.Text.Slice
import CssTree.Proofs.Token.Laid
import CssTree.Proofs.Token.Boundary
import CssTree.Proofs.Token.Cut
import CssTree.Proofs.Token.Stream
import CssTree.Proofs.Token.Fold
import CssTree.Proofs.Token.Settle
import CssTree.Proofs.Token.Reader
import CssTree.Proofs.Token.Behind
import CssTree.Proofs.Tree.Laid
import CssTree.Proofs.Tree.Arena
import CssTree.Proofs.Tree.Formed
import CssTree.Proofs.Grammar.Took
import CssTree.Proofs.Grammar.Logic
import CssTree.Proofs.Grammar.Value
import CssTree.Proofs.Grammar.Selector
import CssTree.Proofs.Grammar.Declaration
import CssTree.Proofs.Grammar.AtRule
import CssTree.Proofs.Grammar.Rule
import CssTree.Proofs.Tree.Linked
import CssTree.Proofs.Grammar.Production
import CssTree.Proofs.Parse
import CssTree.Proofs.Tree.Skeleton
import CssTree.Proofs.Tree.Refill
import CssTree.Proofs.Tree.Update
import CssTree.Proofs.Tree.Respan
import CssTree.Proofs.Grammar.Fragment
import CssTree.Proofs.Fragment
import CssTree.Proofs.Edit.Effect
import CssTree.Proofs.Tree.Relist
import CssTree.Proofs.Tree.Sound
import CssTree.Proofs.Edit.Sound
import CssTree.Proofs.Edit.Outcome
import CssTree.Proofs.Edit.Mutation
import CssTree.Proofs.Session
import CssTree.Proofs.Tree.Slots
import CssTree.Proofs.Tree.Proper
import CssTree.Proofs.Tree.Rework
import CssTree.Proofs.Tree.Query
import CssTree.Proofs.Grammar.Yield
import CssTree.Proofs.Grammar.Walk
import CssTree.Proofs.Grammar.Proper
import CssTree.Proofs.Edit.Evolve
import CssTree.Proofs.Edit.Reread
import CssTree.Proofs.Edit.Orderly
import CssTree.Proofs.Shape
import CssTree.Proofs.Validity
import CssTree.Proofs.Twin.Trailing
import CssTree.Proofs.Twin.Comment
import CssTree.Proofs.Grammar.Within
import CssTree.Proofs.Twin.Remark
import CssTree.Proofs.Backtrack
import CssTree.Proofs.Nesting
import CssTree.Proofs.Tree.Ahead
import CssTree.Proofs.Tree.Moved
import CssTree.Proofs.Edit.Splice
import CssTree.Proofs.Insertion
import CssTree.Proofs.Edit.Cut
import CssTree.Proofs.Tree.Obeyed
import CssTree.Proofs.Edit.Lasting
import CssTree.Proofs.Removal
import CssTree.Proofs.Replacement
import CssTree.Proofs.Toggle
import CssTree.Proofs.Edit.Insert
import CssTree.Proofs.Edit.Undo
import CssTree.Proofs.Grammar.Headed
import CssTree.Proofs.Trivia
import CssTree.Proofs.Token.FoldAll
import CssTree.Proofs.Token.Structural
import CssTree.Proofs.Token.Prompt.Name
import CssTree.Proofs.Token.Prompt.Number
import CssTree.Proofs.Token.Prompt.Lexeme
import CssTree.Proofs.Token.Prompt.Bound
import CssTree.Proofs.Token.Stretch
import CssTree.Proofs.Token.Pieces
import CssTree.Proofs.Tree.Plain
import CssTree.Proofs.Grammar.Since
import CssTree.Proofs.Grammar.Steady
import CssTree.Proofs.Grammar.Origin
import CssTree.Proofs.Syntax.At
import CssTree.Proofs.Syntax.Spelling
import CssTree.Proofs.Syntax.Value
import CssTree.Proofs.Syntax.Declaration
import CssTree.Proofs.Syntax.Rename
import CssTree.Proofs.Syntax.Ease
import CssTree.Proofs.Syntax.Fragment
import CssTree.Proofs.Renaming
import CssTree.Proofs.Text.Patch
import CssTree.Proofs.Repair
import CssTree.Proofs.Token.Filled
import CssTree.Proofs.Tree.Strung
import CssTree.Proofs.Text.Push
import CssTree.Proofs.Tree.Context
import CssTree.Proofs.Tree.Faded
import CssTree.Proofs.Tree.Tailed
import CssTree.Proofs.Tree.Placed
import CssTree.Proofs.Tree.Renumber
import CssTree.Proofs.Tree.Beside
import CssTree.Proofs.Grammar.Neat
import CssTree.Proofs.Grammar.Filled
import CssTree.Proofs.Twin.Same
import CssTree.Proofs.Edit.Thread
import CssTree.Proofs.Edit.Exchange
import CssTree.Proofs.Edit.Respell
import CssTree.Proofs.Edit.Strung
import CssTree.Proofs.Edit.Remake
import CssTree.Proofs.Edit.Growth
import CssTree.Proofs.Block
import CssTree.Proofs.Commute
import CssTree.Proofs.Text.Order
import CssTree.Proofs.Text.Offset
import CssTree.Proofs.Placement
import CssTree.Proofs.Token.Address
import CssTree.Proofs.Token.Decoded
import CssTree.Proofs.Token.Found
import CssTree.Proofs.Token.CodePoints
import CssTree.Proofs.Token.Numeral
import CssTree.Proofs.Token.Quoted
import CssTree.Proofs.Token.Escaped
import CssTree.Proofs.Edit.Append
import CssTree.Proofs.Edit.Container
import CssTree.Proofs.Restoration
import CssTree.Proofs.Edit.Spaced
import CssTree.Proofs.Tree.Parts
import CssTree.Proofs.Selector
import CssTree.Proofs.Token.Pull
import CssTree.Proofs.Tree.Fitted
import CssTree.Proofs.Tree.Census
import CssTree.Proofs.Edit.Touched
import CssTree.Proofs.Views
import CssTree.Proofs.Traversal
import CssTree.Proofs.Recovery
