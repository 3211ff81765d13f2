import Submatch.Automaton.Builder
import Submatch.Automaton.Listing
import Submatch.Automaton.Path
import Submatch.Dfa.Exploration
import Submatch.Matcher
import Submatch.Pattern.Backtracking
import Submatch.Pattern.Language
import Submatch.Pattern.Printer
import Submatch.Register.Plain
import Submatch.Symbols.Coverage
import Submatch.Proofs.Register.Execution
import Submatch.Proofs.Register.ParallelMoves
import Submatch.Proofs.Automaton.Closure
import Submatch.Proofs.Automaton.Routes
import Submatch.Proofs.Order.Repeats
import Submatch.Proofs.Symbols.Alphabet
import Submatch.Proofs.Dfa.Program
import Submatch.Proofs.Dfa.Table
import Submatch.Proofs.Order.Numbering
import Submatch.Proofs.Automaton.Histories
import Submatch.Proofs.Dfa.Contenders
import Submatch.Proofs.Dfa.Cache
import Submatch.Proofs.Dfa.Run
import Submatch.Proofs.Automaton.Fragment
import Submatch.Proofs.Automaton.Descent
import Submatch.Proofs.Dfa.Session
import Submatch.Proofs.Pattern.Tours
import Submatch.Proofs.Pattern.Reader
import Submatch.Proofs.Capture.Outcome
import Submatch.Proofs.Matcher.Calls
import Submatch.Proofs.Matcher.Language
import Submatch.Proofs.Pattern.Search
import Submatch.Proofs.Matcher.Backtracking
import Submatch.Proofs.Matcher.Spans
import Submatch.Proofs.Pattern.Numbering
import Submatch.Proofs.Capture.Tree
import Submatch.Proofs.Capture.TagWord
import Submatch.Proofs.Matcher.Tree
import Submatch.Proofs.Dfa.Bounds
import Submatch.Proofs.Matcher.Safety
import Submatch.Proofs.Pattern.Selection
import Submatch.Proofs.Pattern.Uncapture
import Submatch.Proofs.Automaton.Contraction
import Submatch.Proofs.Automaton.ContractedRoutes
import Submatch.Proofs.Matcher.Capturing
import Submatch.Proofs.Order.Appearance
import Submatch.Proofs.Dfa.Canonical
import Submatch.Proofs.Dfa.Store
import Submatch.Proofs.Dfa.Updates
import Submatch.Proofs.Dfa.Finite
import Submatch.Proofs.Dfa.Exploration
import Submatch.Proofs.Dfa.Steps
import Submatch.Proofs.Dfa.Expansions
import Submatch.Proofs.Matcher.Expansions
import Submatch.Proofs.Pattern.WellFormed
import Submatch.Proofs.Pattern.PrintedParts
import Submatch.Proofs.Pattern.Printer
import Submatch.Proofs.Pattern.Completion
import Submatch.Proofs.Pattern.Repetition
import Submatch.Proofs.Pattern.BracketText
import Submatch.Proofs.Capture.Children
import Submatch.Proofs.Symbols.Coverage
import Submatch.Proofs.Symbols.Partition
import Submatch.Proofs.Dfa.FiniteMap
import Submatch.Proofs.Automaton.FirstWalks
import Submatch.Proofs.Automaton.WalkList
import Submatch.Proofs.Automaton.Builder
import Submatch.Proofs.Automaton.Connected
import Submatch.Proofs.Dfa.Progress
import Submatch.Proofs.Pattern.ReadError
import Submatch.Proofs.Pattern.WiderLimits
import Submatch.Proofs.Pattern.NothingToRepeat
import Submatch.Proofs.Pattern.Composition
import Submatch.Proofs.Symbols.Canonical
import Submatch.Symbols.Width
import Submatch.Proofs.Symbols.Gaps
import Submatch.Register.Construction
import Submatch.Register.Versions
import Submatch.Proofs.Register.Construction
import Submatch.Proofs.Register.ArrayVersions
import Submatch.Proofs.Register.FileVersions
import Submatch.Register.Origins
import Submatch.Proofs.Register.HistoryLog
import Submatch.Proofs.Register.Identity
