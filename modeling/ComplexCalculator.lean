import ComplexCalculator.Text.Blank
import ComplexCalculator.Text.Letter
import ComplexCalculator.Text.Quoted
import ComplexCalculator.Text.Source
import ComplexCalculator.Decimal.Significant
import ComplexCalculator.Number.Power
import ComplexCalculator.Number.Factorial
import ComplexCalculator.Number.Text
import ComplexCalculator.Token.Stream
import ComplexCalculator.Expr.Render
import ComplexCalculator.Expr.Evaluate
import ComplexCalculator.Parse.Machine
import ComplexCalculator.Settings.Admission
import ComplexCalculator.Scope.Standard
import ComplexCalculator.Scope.Listing
import ComplexCalculator.Session.Line
import ComplexCalculator.Proofs.Session.Transition
import ComplexCalculator.Proofs.Scope.Maps
import ComplexCalculator.Proofs.Scope.Evaluation
import ComplexCalculator.Proofs.Scope.Refinement
import ComplexCalculator.Proofs.Token.Partition
import ComplexCalculator.Proofs.Session.Replay
import ComplexCalculator.Proofs.Scope.Dependence
import ComplexCalculator.Proofs.Expr.Reference
import ComplexCalculator.Proofs.Session.Notebook
import ComplexCalculator.Proofs.Parse.Vocabulary
import ComplexCalculator.Proofs.Parse.Content
import ComplexCalculator.Proofs.Session.Lines
import ComplexCalculator.Proofs.Session.Independence
import ComplexCalculator.Proofs.Parse.Steps
import ComplexCalculator.Proofs.Parse.Strict
import ComplexCalculator.Proofs.Parse.Completion
import ComplexCalculator.Proofs.Parse.Accounting
import ComplexCalculator.Proofs.Scope.Substitution
import ComplexCalculator.Proofs.Parse.Lockstep
import ComplexCalculator.Proofs.Scope.Resolution
import ComplexCalculator.Proofs.Parse.Brackets
import ComplexCalculator.Proofs.Scope.Visibility
import ComplexCalculator.Proofs.Parse.Failures
import ComplexCalculator.Proofs.Parse.BareCall
import ComplexCalculator.Proofs.Binary64.Order
import ComplexCalculator.Proofs.Number.Factorial
import ComplexCalculator.Proofs.Parse.Spacing
import ComplexCalculator.Proofs.Token.Reader
import ComplexCalculator.Proofs.Scope.Comparisons
import ComplexCalculator.Proofs.Scope.NonFinite
import ComplexCalculator.Proofs.Scope.Unaffected
import ComplexCalculator.Proofs.Scope.Exponential
import ComplexCalculator.Proofs.Number.Text
import ComplexCalculator.Proofs.Session.Sources
import ComplexCalculator.Proofs.Binary64.Nearest
import ComplexCalculator.Proofs.Number.Numeral
import ComplexCalculator.Proofs.Settings.Admission
