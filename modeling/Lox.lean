import Lox.Main
import Lox.Scope.Forest
import Lox.Grammar.Cursor
import Lox.Proofs.Computation
import Lox.Proofs.Grammar.Order
import Lox.Proofs.Grammar.Progress
import Lox.Proofs.Grammar.Phrase
import Lox.Proofs.Grammar.Sound
import Lox.Proofs.Grammar.Complete
import Lox.Proofs.Grammar.Production
import Lox.Proofs.Grammar.Canonical
import Lox.Proofs.Run.Rounds
import Lox.Proofs.Run.Trace
import Lox.Proofs.Grammar.WellFormed
import Lox.Proofs.Run.Safety
import Lox.Proofs.Run.Lexical
import Lox.Proofs.Run.Resolve
import Lox.Proofs.Grammar.Uniform
import Lox.Proofs.Grammar.Termination
import Lox.Proofs.Grammar.Close
import Lox.Proofs.Grammar.Attempt
import Lox.Proofs.Grammar.Segment
import Lox.Proofs.Run.Relabel
import Lox.Proofs.Scan.Join
import Lox.Proofs.Run.Feed
import Lox.Proofs.Run.Rename
import Lox.Proofs.Scan.Gaps
import Lox.Proofs.Grammar.Blame
import Lox.Proofs.Run.History
import Lox.Proofs.Run.Prompt
import Lox.Proofs.Grammar.Part
import Lox.Proofs.Grammar.Recovery
import Lox.Proofs.Run.Frame
import Lox.Proofs.Run.Script
import Lox.Proofs.Scan.Line
import Lox.Proofs.Grammar.Origin
import Lox.Proofs.Run.Culprit
import Lox.Proofs.Run.Padding
import Lox.Proofs.Run.ForLoop
import Lox.Proofs.Grammar.Target
import Lox.Proofs.Scan.Spacing
import Lox.Proofs.Tree.Polish
import Lox.Proofs.Grammar.Mend
import Lox.Proofs.Grammar.Twin
import Lox.Proofs.Equality
import Lox.Proofs.Scope.Forest
import Lox.Proofs.Scan.Lookahead
import Lox.Proofs.Run.Places
