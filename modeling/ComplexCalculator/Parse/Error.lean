import ComplexCalculator.Token.Text

/-!
# Parse errors

Why a text is no expression: a stray character, a token that cannot continue, an end that comes too
early, a name that strict reading does not know, or a definition of something that is no name. All
but the last know their position.
-/
namespace ComplexCalculator

inductive ParseError
  | character (char : Char) (position : Nat)
  | token (lexeme : Lexeme) (position : Nat)
  | ending (position : Nat)
  | unknown (name : String) (position : Nat)
  | target (shown : String)
  deriving DecidableEq

namespace ParseError

def unexpected (t : Token) : ParseError :=
  if t.lexeme = .ending then .ending t.position else .token t.lexeme t.position

def position? : ParseError → Option Nat
  | .character _ n | .token _ n | .ending n | .unknown _ n => some n
  | .target _ => none

def reason : ParseError → String
  | .character c _ => "Unexpected character " ++ Text.quoted (String.ofList [c])
  | .token l _ => "Unexpected token " ++ l.shown
  | .ending _ => "Unexpected end of expression"
  | .unknown name _ => "Unknown symbol " ++ Text.quoted name
  | .target shown => "Left-hand side of ':=' must be a symbol, got " ++ Text.quoted shown

def message (e : ParseError) : String :=
  match e.position? with
  | some n => e.reason ++ " at pos " ++ n.repr
  | none => e.reason

end ParseError
end ComplexCalculator
