import ComplexCalculator.Text.Blank
import ComplexCalculator.Text.Letter
import ComplexCalculator.Binary64.Nearest
import ComplexCalculator.Token.Basic

/-!
# Reading tokens

Blanks are skipped; then the longest mark, a maximal run of digits, one Greek letter or a maximal
run of ASCII letters is taken. Any other character is stray, and the reading stays in front of it.
Every token takes at least one character, so a text is read in finitely many steps.
-/
namespace ComplexCalculator

/-- A place in a text: what is left of it and how many characters came before. -/
structure Cursor where
  position : Nat
  rest : List Char
  deriving DecidableEq

namespace Cursor

def start (text : String) : Cursor := ⟨0, text.toList⟩

def advance (c : Cursor) (n : Nat) : Cursor := ⟨c.position + n, c.rest.drop n⟩

def skipBlanks (c : Cursor) : Cursor := c.advance (c.rest.takeWhile Text.isBlank).length

theorem skipBlanks_rest (c : Cursor) : c.skipBlanks.rest = c.rest.dropWhile Text.isBlank := by
  simp only [skipBlanks, advance]
  induction c.rest with
  | nil => rfl
  | cons a r ih => by_cases h : Text.isBlank a <;> simp [h, ih]

theorem advance_length (c : Cursor) (n : Nat) : (c.advance n).rest.length = c.rest.length - n := by
  simp [advance]

end Cursor

/-- The longest mark at the front of a text. -/
def Mark.read? : List Char → Option Mark
  | '+' :: _ => some .plus
  | '*' :: _ => some .times
  | '/' :: _ => some .over
  | '^' :: _ => some .power
  | '!' :: _ => some .factorial
  | '(' :: _ => some .opening
  | ')' :: _ => some .closing
  | ',' :: _ => some .comma
  | '=' :: _ => some .equal
  | '-' :: '>' :: _ => some .arrow
  | '-' :: _ => some .minus
  | ':' :: '=' :: _ => some .define
  | ':' :: _ => some .colon
  | '<' :: '=' :: '>' :: _ => some .equivalent
  | '<' :: '=' :: _ => some .lessEqual
  | '<' :: '>' :: _ => some .unequal
  | '<' :: _ => some .less
  | '>' :: '=' :: _ => some .greaterEqual
  | '>' :: _ => some .greater
  | _ => none

/-- The lexeme at the front of a text without leading blanks, and its length. -/
def Lexeme.read? (cs : List Char) : Option (Lexeme × Nat) :=
  match Mark.read? cs with
  | some m => some (.mark m, m.spelling.length)
  | none =>
    match cs with
    | [] => none
    | c :: _ =>
      if c.isDigit then
        let ds := cs.takeWhile Char.isDigit
        some (.number (Binary64.ofNat (Nat.ofDigitChars 10 ds 0)), ds.length)
      else if Text.isGreek c then some (.name (String.ofList [c]), 1)
      else if c.isAlpha then
        let cs := cs.takeWhile Char.isAlpha
        some (.name (String.ofList cs), cs.length)
      else none

theorem Mark.spelling_length_pos (m : Mark) : 0 < m.spelling.length := by
  cases m <;> decide

theorem Lexeme.read?_length_pos {cs : List Char} {l : Lexeme} {n : Nat}
    (h : Lexeme.read? cs = some (l, n)) : 0 < n := by
  unfold Lexeme.read? at h
  split at h
  · simp only [Option.some.injEq, Prod.mk.injEq] at h
    exact h.2 ▸ Mark.spelling_length_pos _
  · split at h
    · simp at h
    · rename_i c r _
      split at h
      · rename_i hd
        simp only [Option.some.injEq, Prod.mk.injEq] at h
        rw [← h.2, List.takeWhile_cons_of_pos hd]
        simp
      · split at h
        · simp only [Option.some.injEq, Prod.mk.injEq] at h
          omega
        · split at h
          · rename_i ha
            simp only [Option.some.injEq, Prod.mk.injEq] at h
            rw [← h.2, List.takeWhile_cons_of_pos ha]
            simp
          · simp at h

theorem Lexeme.read?_nil : Lexeme.read? [] = none := rfl

inductive Scan
  | token (token : Token) (after : Cursor)
  | stray (char : Char) (cursor : Cursor)
  | ending (cursor : Cursor)
  deriving DecidableEq

def Cursor.scan (c : Cursor) : Scan :=
  let c := c.skipBlanks
  match Lexeme.read? c.rest with
  | some (l, n) => .token ⟨l, c.position⟩ (c.advance n)
  | none =>
    match c.rest with
    | [] => .ending c
    | a :: _ => .stray a c

theorem Cursor.scan_shorter {c after : Cursor} {t : Token} (h : c.scan = .token t after) :
    after.rest.length < c.rest.length := by
  unfold Cursor.scan at h
  dsimp only at h
  split at h
  · rename_i l n hl
    simp only [Scan.token.injEq] at h
    rw [← h.2, Cursor.advance_length]
    have hn := Lexeme.read?_length_pos hl
    have hs : c.skipBlanks.rest.length ≤ c.rest.length := by
      simp [Cursor.skipBlanks, Cursor.advance]
    have hr : 0 < c.skipBlanks.rest.length := by
      cases hc : c.skipBlanks.rest with
      | nil => rw [hc, Lexeme.read?_nil] at hl; simp at hl
      | cons _ _ => simp
    omega
  · split at h <;> simp at h

end ComplexCalculator
