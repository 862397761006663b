import UrlPattern.Main
import UrlPattern.Prefilter.Record
import UrlPattern.Proofs.CanonicalText
import UrlPattern.Proofs.GeneratedMatch
import UrlPattern.Proofs.PrefilterExact
import UrlPattern.Proofs.StoredGroups
import UrlPattern.ValueType.Alphabet
import UrlPattern.Proofs.NumberedGroups
import UrlPattern.Proofs.CheckedValues
import UrlPattern.Proofs.JsonText
import UrlPattern.Proofs.StoredText
import UrlPattern.Proofs.SectionSteps
import UrlPattern.Proofs.LengthBounds
import UrlPattern.Proofs.ByteCover
import UrlPattern.Proofs.PrefilterMembers
import UrlPattern.Proofs.FlatView
import UrlPattern.Proofs.WholeMatch
import UrlPattern.Proofs.SiblingGroups
import UrlPattern.Proofs.MarkedGroups
import UrlPattern.Proofs.QuotedValues
import UrlPattern.Proofs.Satisfiable
import UrlPattern.Proofs.NumbersInTurn
import UrlPattern.Proofs.ErrorPlaces
import UrlPattern.Proofs.GroupAccount
import UrlPattern.Proofs.PrefixIndex
import UrlPattern.Proofs.StoredPrefilter
import UrlPattern.Proofs.LiveLeaves
import UrlPattern.Proofs.CharacterGate
import UrlPattern.Proofs.MandatoryLiterals
import UrlPattern.Proofs.ProperRange
import UrlPattern.Proofs.InlinedSequences
import UrlPattern.Proofs.CoarseBounds
import UrlPattern.Proofs.TypedArguments
import UrlPattern.Proofs.SectionMarks
import UrlPattern.Proofs.LongestRun
import UrlPattern.Proofs.IntegerTexts
import UrlPattern.Proofs.FiniteByteSets
