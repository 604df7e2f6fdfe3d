import DecafLex.Main
import DecafLex.Scanner.Tokenize
import DecafLex.Proofs.Pattern.Basic
import DecafLex.Proofs.Pattern.LongestFirst
import DecafLex.Proofs.Rule.Language
import DecafLex.Proofs.Rule.Munch
import DecafLex.Proofs.Rule.MaximalMunch
import DecafLex.Proofs.Comment.Depth
import DecafLex.Proofs.Scanner.Fragment
import DecafLex.Proofs.Scanner.Segment
import DecafLex.Proofs.Scanner.Run
import DecafLex.Proofs.Rule.Characters
import DecafLex.Proofs.Rule.Kinds
import DecafLex.Proofs.Scanner.Partition
import DecafLex.Proofs.Scanner.Modes
import DecafLex.Proofs.Scanner.Spans
import DecafLex.Proofs.SymbolTable.Chains
import DecafLex.Proofs.SymbolTable.Occurrences
import DecafLex.Proofs.SymbolTable.Listing
import DecafLex.Proofs.Scanner.Split
import DecafLex.Proofs.Scanner.Shift
import DecafLex.Proofs.Scanner.Newline
import DecafLex.Proofs.Scanner.Spaces
import DecafLex.Proofs.Scanner.Blanking
import DecafLex.Proofs.Scanner.Interning
import DecafLex.Proofs.Scanner.Buckets
import DecafLex.Proofs.Scanner.Consistency
import DecafLex.Proofs.Scanner.Protocol
import DecafLex.Proofs.Scanner.Soundness
import DecafLex.Proofs.Scanner.Joined
import DecafLex.Proofs.Scanner.Truncation
import DecafLex.Proofs.Dump.Program
import DecafLex.Proofs.Dump.Agreement
import DecafLex.Proofs.Scanner.Steps
import DecafLex.Proofs.Checked.Comment
import DecafLex.Proofs.Checked.SymbolTable
import DecafLex.Proofs.Checked.Machine
import DecafLex.Proofs.Checked.Scanner
import DecafLex.Proofs.Checked.Safety
import DecafLex.Proofs.Checked.Basic
import DecafLex.Proofs.Checked.Position
import DecafLex.Proofs.Position.Chunks
import DecafLex.Proofs.Position.Cuts
import DecafLex.Proofs.Diagnostic.Snippet
import DecafLex.Proofs.Scanner.Integers
import DecafLex.Proofs.Rule.Growth
import DecafLex.Proofs.Scanner.Lookahead
import DecafLex.Proofs.SymbolTable.Layout
import DecafLex.Proofs.Dump.Decoding
import DecafLex.Proofs.Binary64.Rounding
import DecafLex.Proofs.Binary64.Nearest
import DecafLex.Proofs.Decimal.Rounding
import DecafLex.Proofs.Scanner.Literals
import DecafLex.Proofs.Scanner.Doubles
