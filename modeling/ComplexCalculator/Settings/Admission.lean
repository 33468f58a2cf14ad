import ComplexCalculator.Settings.Basic
import ComplexCalculator.Text.Blank

/-!
# Admission of settings

Settings are given by name, as values of any kind or as texts of the environment. A choice has to
be spelled exactly; a truth value may be a number or one of the usual words in any case; a precision
may be a whole number, a truth value or the text of a whole number. A real counts as a number when
it is whole and fits into 64 bits, a text when its digits are not too many. Every field that is not
as it should be is refused with one reason, in the order of the fields; a field that is not given
has its standard value and an unknown name is ignored.
-/
namespace ComplexCalculator

inductive RawValue
  | null
  | boolean (value : Bool)
  | integer (value : Int)
  | real (value : Float)
  | text (value : String)
  | other

inductive Field
  | unresolved
  | factorial
  | isStrict
  | precision
  deriving DecidableEq

def Field.label : Field → String
  | .unresolved => "unresolved_symbol"
  | .factorial => "factorial"
  | .isStrict => "strict_symbols"
  | .precision => "precision"

inductive Reason
  | choice (options : List String)
  | truthType
  | truthText
  | integerType
  | integerText
  | integerSize
  | fraction
  | notFinite
  | tooSmall (least : Nat)
  | tooLarge (greatest : Nat)
  deriving DecidableEq

namespace Reason

def label : Reason → String
  | .choice _ => "literal_error"
  | .truthType => "bool_type"
  | .truthText => "bool_parsing"
  | .integerType => "int_type"
  | .integerText => "int_parsing"
  | .integerSize => "int_parsing_size"
  | .fraction => "int_from_float"
  | .notFinite => "finite_number"
  | .tooSmall _ => "greater_than_equal"
  | .tooLarge _ => "less_than_equal"

def message : Reason → String
  | .choice options =>
    "Input should be " ++ " or ".intercalate (options.map fun o => "'" ++ o ++ "'")
  | .truthType => "Input should be a valid boolean"
  | .truthText => "Input should be a valid boolean, unable to interpret input"
  | .integerType => "Input should be a valid integer"
  | .integerText => "Input should be a valid integer, unable to parse string as an integer"
  | .integerSize => "Unable to parse input string as an integer, exceeded maximum size"
  | .fraction => "Input should be a valid integer, got a number with a fractional part"
  | .notFinite => "Input should be a finite number"
  | .tooSmall n => "Input should be greater than or equal to " ++ n.repr
  | .tooLarge n => "Input should be less than or equal to " ++ n.repr

end Reason

structure Refusal where
  field : Field
  reason : Reason
  deriving DecidableEq

namespace RawValue

def choice {α : Type} (label : α → String) (options : List α) : RawValue → Except Reason α
  | .text s =>
    match options.find? (label · == s) with
    | some a => .ok a
    | none => .error (.choice (options.map label))
  | _ => .error (.choice (options.map label))

def fallback : RawValue → Except Reason Fallback := choice Fallback.label [.nan, .zero]

def policy : RawValue → Except Reason FactorialPolicy :=
  choice FactorialPolicy.label [.strict, .staircase]

def trueWords : List String := ["1", "true", "t", "yes", "y", "on"]
def falseWords : List String := ["0", "false", "f", "no", "n", "off"]

/-- The whole number that a real is, strictly between the ends of the 64-bit range. -/
def wholeReal (x : Float) : Except Reason Int :=
  if !x.isFinite then .error .notFinite
  else
    match Binary64.integer? x with
    | none => .error .fraction
    | some n => if n.natAbs < Nat.pow 2 63 then .ok n else .error .integerSize

def truthOfInteger (n : Int) : Except Reason Bool :=
  if n = 1 then .ok true else if n = 0 then .ok false else .error .truthText

def truth : RawValue → Except Reason Bool
  | .boolean b => .ok b
  | .integer n =>
    if Int64.minValue.toInt ≤ n ∧ n ≤ Int64.maxValue.toInt then truthOfInteger n
    else .error .truthType
  | .real x =>
    match wholeReal x with
    | .ok n => truthOfInteger n
    | .error _ => .error .truthType
  | .text s =>
    if s.toLower ∈ trueWords then .ok true
    else if s.toLower ∈ falseWords then .ok false
    else .error .truthText
  | .null | .other => .error .truthType

def splitSign : List Char → Bool × List Char
  | '-' :: cs => (true, cs)
  | '+' :: cs => (false, cs)
  | cs => (false, cs)

/-- Behind a first zero: further zeros and underscores are skipped, of which the last one is kept
where no other digit follows. -/
def skipZeros (last : Char) : List Char → Option (List Char)
  | [] => some [last]
  | c :: cs =>
    if c = '0' ∨ c = '_' then skipZeros c cs
    else if c.isDigit then some (c :: cs)
    else if c = '.' then some (last :: c :: cs)
    else none

def dropLeadingZeros? : List Char → Option (List Char)
  | [] => none
  | c :: cs =>
    if c = '0' then skipZeros c cs
    else if c.isDigit then some (c :: cs)
    else none

def dropPointZeros (cs : List Char) : List Char :=
  match cs.dropWhile (· != '.') with
  | _ :: z :: zs => if (z :: zs).all (· == '0') then cs.takeWhile (· != '.') else cs
  | _ => cs

def hasDoubled (a : Char) : List Char → Bool
  | b :: c :: cs => (b == a && c == a) || hasDoubled a (c :: cs)
  | _ => false

def dropUnderscores (cs : List Char) : List Char :=
  if cs.head? = some '_' ∨ cs.getLast? = some '_' ∨ hasDoubled '_' cs then cs
  else cs.filter (· != '_')

def longest : Nat := 4300

def plain (isNegative : Bool) (cs : List Char) : Except Reason Int :=
  let run := cs.takeWhile Char.isDigit
  if longest < run.length + (if isNegative then 1 else 0) then .error .integerSize
  else if run = cs ∧ cs ≠ [] then
    let n : Int := Nat.ofDigitChars 10 cs 0
    .ok (if isNegative then -n else n)
  else .error .integerText

/-- Spaces at the ends, a plus sign, leading zeros, a point with zeros and single underscores do not
count. The zeros are the number's own, behind whichever sign it has. -/
def wholeText (s : String) : Except Reason Int :=
  let (isNegative, unsigned) := splitSign (Text.strip Text.isSpace s.toList)
  match dropLeadingZeros? unsigned with
  | some cs => plain isNegative (dropUnderscores (dropPointZeros cs))
  | none => .error .integerText

def whole : RawValue → Except Reason Int
  | .boolean b => .ok (if b then 1 else 0)
  | .integer n => .ok n
  | .real x => wholeReal x
  | .text s => wholeText s
  | .null | .other => .error .integerType

abbrev Precision := { n : Nat // 1 ≤ n ∧ n ≤ 17 }

def precision (raw : RawValue) : Except Reason Precision :=
  match raw.whole with
  | .error e => .error e
  | .ok n =>
    if h : n < 1 then .error (.tooSmall 1)
    else if h' : 17 < n then .error (.tooLarge 17)
    else .ok ⟨n.toNat, by omega, by omega⟩

end RawValue

namespace Settings

def digits (s : Settings) : RawValue.Precision := ⟨s.precision, s.precision_pos, s.precision_le⟩

def field {α : Type} (standard : α) (read : RawValue → Except Reason α) (f : Field)
    (given : String → Option RawValue) : Except Refusal α :=
  match given f.label with
  | none => .ok standard
  | some raw =>
    match read raw with
    | .ok a => .ok a
    | .error e => .error ⟨f, e⟩

def refusal? {α : Type} : Except Refusal α → Option Refusal
  | .ok _ => none
  | .error e => some e

def ofGiven (given : String → Option RawValue) : Except (List Refusal) Settings :=
  let unresolved := field standard.unresolved RawValue.fallback .unresolved given
  let factorial := field standard.factorial RawValue.policy .factorial given
  let isStrict := field standard.isStrict RawValue.truth .isStrict given
  let precision := field standard.digits RawValue.precision .precision given
  match unresolved, factorial, isStrict, precision with
  | .ok unresolved, .ok factorial, .ok isStrict, .ok precision =>
    .ok ⟨unresolved, factorial, isStrict, precision, precision.2.1, precision.2.2⟩
  | u, f, s, p =>
    .error ([refusal? u, refusal? f, refusal? s, refusal? p].filterMap id)

def variableName (name : String) : String := "CMATHCALC_" ++ name.toUpper

/-- The settings that an environment of texts gives: each field under its name in capitals behind
the program's own word, blanks at the ends not counted. -/
def ofEnvironment (texts : String → Option String) : Except (List Refusal) Settings :=
  ofGiven fun name =>
    (texts (variableName name)).map fun s =>
      .text (String.ofList (Text.strip Text.isBlank s.toList))

end Settings
end ComplexCalculator
