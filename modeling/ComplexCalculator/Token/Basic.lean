/-!
# Tokens

A lexeme is a number, a name, one of the marks, or the end of the text; a token is a lexeme and the
place of its first character, counted in characters.
-/
namespace ComplexCalculator

inductive Mark
  | plus | minus | times | over | power | factorial
  | opening | closing | comma | colon | arrow
  | equal | unequal | less | greater | lessEqual | greaterEqual | equivalent | define
  deriving DecidableEq

def Mark.spelling : Mark → String
  | .plus => "+"
  | .minus => "-"
  | .times => "*"
  | .over => "/"
  | .power => "^"
  | .factorial => "!"
  | .opening => "("
  | .closing => ")"
  | .comma => ","
  | .colon => ":"
  | .arrow => "->"
  | .equal => "="
  | .unequal => "<>"
  | .less => "<"
  | .greater => ">"
  | .lessEqual => "<="
  | .greaterEqual => ">="
  | .equivalent => "<=>"
  | .define => ":="

inductive Lexeme
  | number (value : Float)
  | name (text : String)
  | mark (mark : Mark)
  | ending
  deriving DecidableEq

structure Token where
  lexeme : Lexeme
  position : Nat
  deriving DecidableEq

end ComplexCalculator
