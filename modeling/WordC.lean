import WordC.Main
import WordC.Proofs.Accept.Language
import WordC.Proofs.Compile.Endings
import WordC.Proofs.Compile.NameFirst
import WordC.Proofs.Compile.Precedence
import WordC.Proofs.Compile.Trees
import WordC.Proofs.Engine.Literals
import WordC.Proofs.Engine.Repetition
import WordC.Proofs.Machine.Allotments
import WordC.Proofs.Machine.Blocks
import WordC.Proofs.Machine.Comparison
import WordC.Proofs.Machine.Disassembly
import WordC.Proofs.Machine.Files
import WordC.Proofs.Machine.Guarded
import WordC.Proofs.Machine.Limits
import WordC.Proofs.Machine.Numerals
import WordC.Proofs.Machine.Templates
import WordC.Proofs.Machine.Unconverted
import WordC.Proofs.Memory.Heap
import WordC.Proofs.Program.Booting
import WordC.Proofs.Program.Correctness
import WordC.Proofs.Program.Expressions
import WordC.Proofs.Program.Slots
import WordC.Proofs.Prompt.Colours
import WordC.Proofs.Prompt.Words
import WordC.Proofs.Session.Comments
import WordC.Proofs.Symbol.Stack
import WordC.Proofs.Token.Calls
import WordC.Proofs.Token.Gaps
import WordC.Proofs.Token.Lexemes
import WordC.Proofs.Token.Longest
import WordC.Proofs.Token.Lossless
import WordC.Proofs.Token.Positions
import WordC.Proofs.Tree.Events
