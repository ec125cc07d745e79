import InfixCalculator.Desk.Window
import InfixCalculator.Proofs.Application
import InfixCalculator.Proofs.Blame
import InfixCalculator.Proofs.Boundary
import InfixCalculator.Proofs.Counts
import InfixCalculator.Proofs.Enclosure
import InfixCalculator.Proofs.FunctionOperand
import InfixCalculator.Proofs.Grammar
import InfixCalculator.Proofs.Normalisation
import InfixCalculator.Proofs.Numerals
import InfixCalculator.Proofs.Parentheses
import InfixCalculator.Proofs.Pieces
import InfixCalculator.Proofs.Postfix
import InfixCalculator.Proofs.Precedence
import InfixCalculator.Proofs.Spans
import InfixCalculator.Proofs.Steps
import InfixCalculator.Proofs.Words
import InfixCalculator.Proofs.Neighbours
import InfixCalculator.Proofs.LexicalGrammar
import InfixCalculator.Proofs.Causes
import InfixCalculator.Proofs.Influence
import InfixCalculator.Proofs.StrayPoints
import InfixCalculator.Proofs.KeypadEntry
import InfixCalculator.Proofs.DecimalText
import InfixCalculator.Proofs.ExactValue
import InfixCalculator.Proofs.Rounding
import InfixCalculator.Proofs.DisplayedValue
import InfixCalculator.Proofs.ByteScan
import InfixCalculator.Proofs.TokenWords
import InfixCalculator.Proofs.Fronts
import InfixCalculator.Proofs.Tiling
import InfixCalculator.Proofs.Correspondence
import InfixCalculator.Proofs.Listing
import InfixCalculator.Proofs.Spacing
import InfixCalculator.Proofs.FailedEvaluations
import InfixCalculator.Proofs.EvaluationLog
import InfixCalculator.Proofs.ScreenFields
import InfixCalculator.Proofs.EntryPoints
import InfixCalculator.Proofs.Joints
import InfixCalculator.Proofs.KeyTokens
import InfixCalculator.Proofs.Deletions
import InfixCalculator.Proofs.Underline
import InfixCalculator.Proofs.Unmatched
import InfixCalculator.Proofs.Concatenation
import InfixCalculator.Proofs.BitPatterns
import InfixCalculator.Proofs.LongestNumeral
import InfixCalculator.Proofs.OperandFrame
import InfixCalculator.Proofs.Segments
import InfixCalculator.Proofs.NearestValue
import InfixCalculator.Proofs.NumeralValue
import InfixCalculator.Proofs.SameDigits
import InfixCalculator.Proofs.TypedBack
import InfixCalculator.Proofs.Moments
import InfixCalculator.Proofs.PendingOrder
