import ExprFold.Proofs.Nesting
import ExprFold.Proofs.Substitution
import ExprFold.Proofs.Lexemes
import ExprFold.Proofs.Agreement
import ExprFold.Proofs.Rendering
import ExprFold.Proofs.Doubles
import ExprFold.Proofs.Rounding
import ExprFold.Proofs.Printing
import ExprFold.Proofs.JsonText
import ExprFold.Proofs.Documents
import ExprFold.Proofs.Names
import ExprFold.Proofs.Places
import ExprFold.Proofs.Settled
import ExprFold.Proofs.Demand
import ExprFold.Proofs.Literals
import ExprFold.Proofs.ParsedFaults
import ExprFold.Proofs.Spacing
import ExprFold.Proofs.SignedIntegers
import ExprFold.Proofs.SignedDoubles
import ExprFold.Proofs.Negation
import ExprFold.Token.ByteScan
import ExprFold.Proofs.ByteScan
import ExprFold.Proofs.StrayCharacters
import ExprFold.Proofs.MaximalMunch
import ExprFold.Proofs.Misfits
import ExprFold.Proofs.Traversals
import ExprFold.Proofs.Validation
import ExprFold.Residual.Collection
import ExprFold.Proofs.FoldLog
import ExprFold.Proofs.NameOrder
import ExprFold.Proofs.Overflow
import ExprFold.Proofs.NumberTexts
import ExprFold.Proofs.DecimalLiterals
import ExprFold.Proofs.Acceptance
import ExprFold.Proofs.Descent
import ExprFold.Proofs.Sessions
