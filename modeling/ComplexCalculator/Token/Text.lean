import ComplexCalculator.Text.Quoted
import ComplexCalculator.Decimal.Shortest
import ComplexCalculator.Token.Basic

/-!
# Token texts

The names of the kinds of tokens, and the written form of a token: its kind, what it holds and its
position. A number shows its shortest text, a name or mark its quoted spelling, and the end nothing.
-/
namespace ComplexCalculator

def Mark.label : Mark → String
  | .plus => "PLUS"
  | .minus => "MINUS"
  | .times => "MUL"
  | .over => "DIV"
  | .power => "POW"
  | .factorial => "FAC"
  | .opening => "RND_OPEN"
  | .closing => "RND_CLOSE"
  | .comma => "COMMA"
  | .colon => "COLON"
  | .arrow => "RIGHT_ARROW"
  | .equal => "EQU"
  | .unequal => "NOT_EQU"
  | .less => "LESS"
  | .greater => "GREATER"
  | .lessEqual => "LESS_EQU"
  | .greaterEqual => "GREATER_EQU"
  | .equivalent => "EQUIVALENCE"
  | .define => "DEFINE"

namespace Lexeme

def label : Lexeme → String
  | .number _ => "NUMBER"
  | .name _ => "SYMBOL"
  | .mark m => m.label
  | .ending => "EOF"

def shown : Lexeme → String
  | .number x => Decimal.text x
  | .name s => Text.quoted s
  | .mark m => Text.quoted m.spelling
  | .ending => "None"

end Lexeme

def Token.shown (t : Token) : String :=
  "Token(" ++ t.lexeme.label ++ ", " ++ t.lexeme.shown ++ ", pos=" ++ t.position.repr ++ ")"

end ComplexCalculator
