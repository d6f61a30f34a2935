import PolyScript.Main
import PolyScript.Match.Basic
import PolyScript.Proofs.Buffer
import PolyScript.Value.Json
import PolyScript.Proofs.TreePositions
import PolyScript.Proofs.AtEnd
import PolyScript.Proofs.Alike
import PolyScript.Proofs.AlikeExpression
import PolyScript.Proofs.AlikeStatement
import PolyScript.Proofs.Discipline
import PolyScript.Proofs.Fate
import PolyScript.Proofs.Guard
import PolyScript.Proofs.SizeMode
import PolyScript.Proofs.LoopControl
import PolyScript.Proofs.Foresight
import PolyScript.Proofs.Concatenation
import PolyScript.Proofs.GuestCode
import PolyScript.Proofs.Cursors
import PolyScript.Proofs.ExpressionsReadBack
import PolyScript.Proofs.LanguageOrder
import PolyScript.Proofs.Lexemes
import PolyScript.Proofs.ParsedPatterns
import PolyScript.Proofs.PatternsReadBack
import PolyScript.Proofs.Reordering
import PolyScript.Proofs.Separation
import PolyScript.Proofs.Tape
import PolyScript.Proofs.Progress
import PolyScript.Proofs.GuestCalls
import PolyScript.Proofs.WellFormed
import PolyScript.Proofs.LanguageNames
import PolyScript.Proofs.Bindings
import PolyScript.Proofs.Layering
import PolyScript.Proofs.Precedence
import PolyScript.Proofs.HandlerIndex
import PolyScript.Proofs.Passages
import PolyScript.Proofs.Sights
import PolyScript.Proofs.Echoes
import PolyScript.Proofs.EchoExpressions
import PolyScript.Proofs.EchoStatements
import PolyScript.Proofs.EchoDispatch
import PolyScript.Proofs.SingleLineConditionals
import PolyScript.Proofs.OrderedChoice
import PolyScript.Proofs.FirstTokens
import PolyScript.Proofs.PipeStatements
import PolyScript.Proofs.LooseEquality
import PolyScript.Proofs.RepeatedLayers
import PolyScript.Proofs.Satisfaction
import PolyScript.Proofs.BitReader
import PolyScript.Proofs.IntegerSegments
import PolyScript.Proofs.BitStringsReadBack
import PolyScript.Proofs.StringLiterals
import PolyScript.Proofs.DashedNames
import PolyScript.Proofs.SettingsNames
import PolyScript.Proofs.FirstFault
import PolyScript.Proofs.ValuesOfDocuments
import PolyScript.Proofs.Arguments
import PolyScript.Proofs.NumberValues
