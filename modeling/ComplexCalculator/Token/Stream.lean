import ComplexCalculator.Text.Source
import ComplexCalculator.Token.Scan

/-!
# Token streams

A text is a list of tokens that ends either properly, with the end of the text, or at the first
stray character. A reader goes through a text step by step: at the end it stays there, and at a
stray character it keeps the token it has. A source has a stream and a reader if it is a text.
-/
namespace ComplexCalculator

inductive Stream
  | token (token : Token) (rest : Stream)
  | ending (position : Nat)
  | stray (char : Char) (position : Nat)
  deriving DecidableEq

def Cursor.stream (c : Cursor) : Stream :=
  match _h : c.scan with
  | .token t after => .token t after.stream
  | .stray a c => .stray a c.position
  | .ending c => .ending c.position
termination_by c.rest.length
decreasing_by exact Cursor.scan_shorter ‹_›

namespace Stream

def ofString (text : String) : Stream := (Cursor.start text).stream

def ofSource? (source : Text.Source) : Option Stream := source.read?.map ofString

def tokens : Stream → List Token
  | .token t rest => t :: rest.tokens
  | .ending n => [⟨.ending, n⟩]
  | .stray _ _ => []

def stray? : Stream → Option (Char × Nat)
  | .token _ rest => rest.stray?
  | .ending _ => none
  | .stray c n => some (c, n)

end Stream

structure Reader where
  current : Token
  cursor : Cursor
  deriving DecidableEq

namespace Reader

def start (text : String) : Reader := ⟨⟨.ending, 0⟩, Cursor.start text⟩

def ofSource? (source : Text.Source) : Option Reader := source.read?.map start

inductive Advance
  | token
  | ending
  | stray (char : Char)
  deriving DecidableEq

def next (r : Reader) : Advance × Reader :=
  match r.cursor.scan with
  | .token t after => (.token, ⟨t, after⟩)
  | .ending c => (.ending, ⟨⟨.ending, c.position⟩, c⟩)
  | .stray a c => (.stray a, ⟨r.current, c⟩)

end Reader
end ComplexCalculator
