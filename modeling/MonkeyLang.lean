import MonkeyLang.CommandLine
import MonkeyLang.Console.Highlight
import MonkeyLang.Console.Loop
import MonkeyLang.Main
import MonkeyLang.Syntax.Equality
import MonkeyLang.Token.Cursor
import MonkeyLang.Value.Constructor
import MonkeyLang.Value.Equality
import MonkeyLang.Proofs.Formed
import MonkeyLang.Proofs.Spelling
import MonkeyLang.Proofs.Reading
import MonkeyLang.Proofs.Erasure
import MonkeyLang.Proofs.RoundTrip
import MonkeyLang.Proofs.Yield
import MonkeyLang.Proofs.Abort
import MonkeyLang.Proofs.Names
import MonkeyLang.Proofs.Frames
import MonkeyLang.Proofs.Heap
import MonkeyLang.Proofs.Exit
import MonkeyLang.Proofs.Whole
import MonkeyLang.Proofs.Safety
import MonkeyLang.Proofs.Renaming
import MonkeyLang.Proofs.View
import MonkeyLang.Proofs.Lockstep
import MonkeyLang.Proofs.Tandem
import MonkeyLang.Proofs.Session
import MonkeyLang.Proofs.Repeatable
import MonkeyLang.Proofs.Unmentioned
import MonkeyLang.Proofs.Lookahead
import MonkeyLang.Proofs.Juncture
import MonkeyLang.Proofs.Sequence
import MonkeyLang.Proofs.Stops
import MonkeyLang.Proofs.Recovery
import MonkeyLang.Proofs.Balance
import MonkeyLang.Proofs.Splitting
import MonkeyLang.Proofs.Tiling
import MonkeyLang.Proofs.Separation
import MonkeyLang.Proofs.Nesting
import MonkeyLang.Proofs.Refusal
import MonkeyLang.Proofs.Credit
import MonkeyLang.Proofs.HashLiteral
import MonkeyLang.Proofs.Range
import MonkeyLang.Proofs.Commands
import MonkeyLang.Proofs.Arithmetic
import MonkeyLang.Proofs.Display
import MonkeyLang.Proofs.Highlight
import MonkeyLang.Proofs.Coverage
import MonkeyLang.Proofs.Outline
import MonkeyLang.Proofs.Joining
import MonkeyLang.Proofs.Submission
import MonkeyLang.Proofs.Indentation
import MonkeyLang.Proofs.Literal
import MonkeyLang.Proofs.Scope
