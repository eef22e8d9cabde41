/-!
# Tokens

The words of a program: their kinds, and the endless stream in which they reach the
compiler.

## Main definitions

* `Token` — a kind, the text it stands for, and a source line.
* `TokenStream` — finitely many tokens followed by one that repeats for ever.
-/

namespace Lox

/-- What a token is. -/
inductive TokenKind where
  | leftParen | rightParen | leftBrace | rightBrace
  | comma | dot | minus | plus | semicolon | slash | star
  | bang | bangEqual | equal | equalEqual
  | greater | greaterEqual | less | lessEqual
  | identifier | string | number
  | andWord | classWord | elseWord | falseWord | forWord | funWord | ifWord | nilWord
  | orWord | printWord | returnWord | superWord | thisWord | trueWord | varWord | whileWord
  /-- Text that is no token; the lexeme is the complaint. -/
  | malformed
  /-- The end of the input. -/
  | endOfInput
  deriving DecidableEq, Repr

/-- The kind of a word: a reserved word is a kind of its own, and any other word is an
identifier. -/
def TokenKind.ofWord (word : String) : TokenKind :=
  match word with
  | "and" => .andWord
  | "class" => .classWord
  | "else" => .elseWord
  | "false" => .falseWord
  | "for" => .forWord
  | "fun" => .funWord
  | "if" => .ifWord
  | "nil" => .nilWord
  | "or" => .orWord
  | "print" => .printWord
  | "return" => .returnWord
  | "super" => .superWord
  | "this" => .thisWord
  | "true" => .trueWord
  | "var" => .varWord
  | "while" => .whileWord
  | _ => .identifier

/-- A token of the source. -/
structure Token where
  /-- What the token is. -/
  kind : TokenKind
  /-- The text of the token, or the complaint of a malformed one. -/
  lexeme : String
  /-- The line on which the token ends, counted from one with the 32 bits of a cursor. -/
  line : Nat
  deriving DecidableEq, Repr

/-- An endless sequence of tokens: the pending ones, then `final` over and over. -/
structure TokenStream where
  /-- The tokens not yet taken. -/
  pending : List Token
  /-- What is taken once no token is pending. -/
  final : Token
  deriving Repr

namespace TokenStream

/-- A list of tokens, after which the input ends on line zero. -/
def ofList (tokens : List Token) : TokenStream := ⟨tokens, ⟨.endOfInput, "", 0⟩⟩

/-- The next token and the stream after it. -/
def next : TokenStream → Token × TokenStream
  | ⟨[], final⟩ => (final, ⟨[], final⟩)
  | ⟨token :: pending, final⟩ => (token, ⟨pending, final⟩)

end TokenStream

end Lox
