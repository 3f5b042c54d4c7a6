import SeqPattern.Foreign.Standard
import SeqPattern.ElementTest
import SeqPattern.Expression.Nodes
import SeqPattern.Expression.Text
import SeqPattern.Meaning.Ends
import SeqPattern.Meaning.Leftmost
import SeqPattern.Meaning.Length
import SeqPattern.Meaning.Reach
import SeqPattern.Registry
import SeqPattern.Session
import SeqPattern.Source
import SeqPattern.Source.Feed
import SeqPattern.Proofs.Answers
import SeqPattern.Proofs.Enumeration
import SeqPattern.Proofs.Backtracking
import SeqPattern.Proofs.Repetition
import SeqPattern.Proofs.Lookaround
import SeqPattern.Proofs.Patterns
import SeqPattern.Proofs.OrderedStops
import SeqPattern.Proofs.Matching
import SeqPattern.Proofs.RepeatedSums
import SeqPattern.Meaning.Room
import SeqPattern.Proofs.ToldLengths
import SeqPattern.Proofs.Margin
import SeqPattern.Proofs.LookBehind
import SeqPattern.Meaning.Supply
import SeqPattern.Proofs.Caching
import SeqPattern.Proofs.Work
import SeqPattern.Proofs.Replies
import SeqPattern.Proofs.Leftmost
import SeqPattern.Proofs.Searching
import SeqPattern.Meaning.Preference
import SeqPattern.Proofs.Preference
import SeqPattern.Proofs.Equivalence
import SeqPattern.Proofs.ExactLengths
import SeqPattern.Proofs.Unrolling
import SeqPattern.Proofs.Course
import SeqPattern.Proofs.Trail
import SeqPattern.Proofs.Ladder
import SeqPattern.Proofs.Coherence
import SeqPattern.Proofs.WellFormed
import SeqPattern.Proofs.RoundBounds
import SeqPattern.Proofs.RoundOrder
import SeqPattern.Proofs.DrawnWithin
import SeqPattern.Proofs.LookForward
import SeqPattern.Proofs.Visiting
import SeqPattern.Proofs.Placement
import SeqPattern.Proofs.CappedLengths
import SeqPattern.Proofs.LeftContext
import SeqPattern.Proofs.MaximalRuns
import SeqPattern.Proofs.Occurrences
import SeqPattern.Proofs.Regrouping
import SeqPattern.Proofs.Known
import SeqPattern.Proofs.WindowReading
import SeqPattern.Proofs.Windows
import SeqPattern.Meaning.Phrase
import SeqPattern.Proofs.UniqueReading
import SeqPattern.Proofs.SpelledText
import SeqPattern.Proofs.SameMeaning
import SeqPattern.Proofs.DebugText
import SeqPattern.Proofs.RoundCount
import SeqPattern.Meaning.Collecting
import SeqPattern.Proofs.Collecting
import SeqPattern.Meaning.Registering
import SeqPattern.Proofs.Registering
import SeqPattern.Proofs.StackDiscipline
