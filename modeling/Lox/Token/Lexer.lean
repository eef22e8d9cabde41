import Lox.Token.Basic

/-!
# Lexing

Source text is split into tokens from left to right, each the longest of its class. Blanks,
tabs, carriage returns, newlines and comments separate tokens and belong to none.

Lexing never fails. A byte that starts no token becomes a malformed token, and lexing goes
on after it. Since the unit is the byte, a character outside ASCII that stands outside
strings and comments gives as many malformed tokens as its UTF-8 form has bytes: the cursor
*owes* the ones it has not yet given.

## Main definitions

* `Cursor` — a place in the text, with its line.
* `Cursor.token` — the next token and the place after it.
* `TokenStream.ofSource` — all tokens of a text.
-/

namespace Lox

/-- A place in the source text. -/
structure Cursor where
  /-- The text from here on. -/
  rest : List Char
  /-- The line of this place. The counter has 32 bits, and after its last value it goes on with
  zero. -/
  line : UInt32
  /-- How many bytes of the character just read have yet to be reported. -/
  owed : Nat := 0

namespace Cursor

/-- The start of a text. -/
def start (source : String) : Cursor := { rest := source.toList, line := 1 }

/-! ### Between tokens -/

/-- How many newlines a text holds. -/
def newlines (text : List Char) : Nat := text.count '\n'

/-- The line after a text, given the line before it. -/
def lineAfter (line : UInt32) (text : List Char) : UInt32 := line + .ofNat (newlines text)

/-- What follows a run of blanks, newlines and comments, and the line it is on. A comment
runs from two slashes up to the newline, which is left to be read as such. -/
def skipBlank : List Char → UInt32 → List Char × UInt32
  | [], line => ([], line)
  | '\n' :: rest, line => skipBlank rest (line + 1)
  | ' ' :: rest, line => skipBlank rest line
  | '\r' :: rest, line => skipBlank rest line
  | '\t' :: rest, line => skipBlank rest line
  | '/' :: '/' :: rest, line => skipBlank (rest.dropWhile (· ≠ '\n')) line
  | rest, line => (rest, line)
termination_by text => text.length
decreasing_by
  all_goals simp only [List.length_cons]
  any_goals omega
  have := (List.dropWhile_suffix (l := rest) (· ≠ '\n')).length_le
  omega

/-! ### Inside tokens -/

/-- A character that may start a word. -/
def startsWord (c : Char) : Bool := c.isAlpha || c = '_'

/-- A character that may go on a word. -/
def continuesWord (c : Char) : Bool := startsWord c || c.isDigit

/-- How many characters of a number the text starts with: digits, and a fraction only if a
digit follows the point. -/
def numberLength (text : List Char) : Nat :=
  let whole := (text.takeWhile Char.isDigit).length
  match text.drop whole with
  | '.' :: rest =>
    let fraction := (rest.takeWhile Char.isDigit).length
    if fraction = 0 then whole else whole + 1 + fraction
  | _ => whole

/-- The kind and length of the mark that a text starts with, the longer one of two. -/
def mark? : List Char → Option (TokenKind × Nat)
  | '(' :: _ => some (.leftParen, 1)
  | ')' :: _ => some (.rightParen, 1)
  | '{' :: _ => some (.leftBrace, 1)
  | '}' :: _ => some (.rightBrace, 1)
  | ';' :: _ => some (.semicolon, 1)
  | ',' :: _ => some (.comma, 1)
  | '.' :: _ => some (.dot, 1)
  | '-' :: _ => some (.minus, 1)
  | '+' :: _ => some (.plus, 1)
  | '/' :: _ => some (.slash, 1)
  | '*' :: _ => some (.star, 1)
  | '!' :: '=' :: _ => some (.bangEqual, 2)
  | '!' :: _ => some (.bang, 1)
  | '=' :: '=' :: _ => some (.equalEqual, 2)
  | '=' :: _ => some (.equal, 1)
  | '<' :: '=' :: _ => some (.lessEqual, 2)
  | '<' :: _ => some (.less, 1)
  | '>' :: '=' :: _ => some (.greaterEqual, 2)
  | '>' :: _ => some (.greater, 1)
  | _ => none

/-- The complaint about a byte that starts no token. -/
def unexpectedCharacter : String := "Unexpected character."

/-- The complaint about a string that the input ends in. -/
def unterminatedString : String := "Unterminated string."

/-- The token made of the first `length` characters, and the place after it. -/
def take (cursor : Cursor) (kind : TokenKind) (length : Nat) : Token × Cursor :=
  let text := cursor.rest.take length
  let line := lineAfter cursor.line text
  (⟨kind, String.ofList text, line.toNat⟩, { rest := cursor.rest.drop length, line })

/-- A string literal, where `cursor` stands at its opening quote. It goes up to the next
quote, over newlines too; without one the rest of the input is malformed. -/
def stringLiteral (cursor : Cursor) : Token × Cursor :=
  let inside := (cursor.rest.drop 1).takeWhile (· ≠ '"')
  if (cursor.rest.drop 1).length = inside.length then
    let line := lineAfter cursor.line inside
    (⟨.malformed, unterminatedString, line.toNat⟩, { rest := [], line })
  else take cursor .string (inside.length + 2)

/-- The token that starts right here. A character of several bytes is reported one byte at a
time, so all but the first are owed. -/
def tokenHere (cursor : Cursor) : Token × Cursor :=
  match cursor.rest with
  | [] => (⟨.endOfInput, "", cursor.line.toNat⟩, cursor)
  | c :: rest =>
    if startsWord c then
      let word := cursor.rest.takeWhile continuesWord
      take cursor (.ofWord (String.ofList word)) word.length
    else if c.isDigit then take cursor .number (numberLength cursor.rest)
    else if c = '"' then stringLiteral cursor
    else
      match mark? cursor.rest with
      | some (kind, length) => take cursor kind length
      | none =>
        (⟨.malformed, unexpectedCharacter, cursor.line.toNat⟩,
          { rest, line := cursor.line, owed := c.utf8Size - 1 })

/-- The next token and the place after it. -/
def token (cursor : Cursor) : Token × Cursor :=
  match cursor.owed with
  | owed + 1 => (⟨.malformed, unexpectedCharacter, cursor.line.toNat⟩, { cursor with owed })
  | 0 =>
    let (rest, line) := skipBlank cursor.rest cursor.line
    tokenHere { rest, line }

/-- The tokens from a place up to the end of input, and the one that marks the end. Every
token but the last takes a byte, so `bytes` bounds their number. -/
def tokens : (bytes : Nat) → Cursor → List Token × Token
  | 0, cursor => ([], cursor.token.1)
  | bytes + 1, cursor =>
    let (token, after) := cursor.token
    if token.kind = .endOfInput then ([], token)
    else
      let (others, final) := tokens bytes after
      (token :: others, final)

end Cursor

/-- The tokens of a source text. The end of input repeats for ever, on the last line. -/
def TokenStream.ofSource (source : String) : TokenStream :=
  let (pending, final) := Cursor.tokens source.utf8ByteSize (Cursor.start source)
  { pending, final }

end Lox
