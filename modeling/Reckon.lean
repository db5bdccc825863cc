import Reckon.Compiled
import Reckon.Environment
import Reckon.Main
import Reckon.Proofs.ParserExactness
import Reckon.Proofs.RoundTrip
import Reckon.Proofs.FirstError
import Reckon.Proofs.SyntaxErrors
import Reckon.Proofs.ParserFailures
import Reckon.Proofs.Truncation
import Reckon.Proofs.TallTrees
import Reckon.Proofs.ScanAgreement
import Reckon.Proofs.TokenCover
import Reckon.Proofs.RequestOrder
import Reckon.Proofs.HostAgreement
import Reckon.Proofs.InOrderWalk
import Reckon.Proofs.Blanks
import Reckon.Proofs.ErrorPositions
import Reckon.Proofs.MovedPlaces
import Reckon.Proofs.Layout
import Reckon.Proofs.EnvironmentHistory
import Reckon.Proofs.DepthHeight
import Reckon.Proofs.NestingLimits
import Reckon.Proofs.ParenthesizedSource
import Reckon.Proofs.LongestMatch
import Reckon.Proofs.StringLiterals
import Reckon.Proofs.LogicLaws
import Reckon.Proofs.OperatorFailures
import Reckon.Proofs.EqualityAndOrder
import Reckon.Proofs.StringOrder
import Reckon.Proofs.Substrings
import Reckon.Proofs.GuardErrors
import Reckon.Proofs.Substitution
import Reckon.Proofs.FixedNumerals
import Reckon.Proofs.EqualityLaws
import Reckon.Proofs.WellFormedTrees
import Reckon.Proofs.NumeralGrammar
import Reckon.Proofs.RunningHeights
import Reckon.Proofs.Lookahead
