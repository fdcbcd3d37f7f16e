import MapChain.Json.Number
import MapChain.Json.Quoted
import MapChain.Text.Whitespace

/-!
# JSON tokens

A JSON text is a sequence of tokens with white space around them. A token keeps the characters it
was written with, so that a text is its tokens and the spaces between them and nothing is lost.

The lexer reads one character at a time. Between tokens it skips white space and takes punctuation;
inside a literal it collects characters up to the one that ends it: the closing quote of a string,
or, for a number or a word, the first character that can belong to neither.
-/

namespace MapChain.Json

/-! ## The tokens -/

/-- The words of the language. -/
inductive Word where
  | null | true | false
  deriving DecidableEq, Repr

/-- A token, with its characters where they vary. -/
inductive Token where
  | openBrace | closeBrace | openBracket | closeBracket | colon | comma
  | word (w : Word)
  /-- A number literal. -/
  | number (literal : List Char)
  /-- A string literal without its quotes. -/
  | string (body : List Char)
  deriving DecidableEq, Repr

/-- How a word is written. -/
def Word.text : Word → List Char
  | .null => ['n', 'u', 'l', 'l']
  | .true => ['t', 'r', 'u', 'e']
  | .false => ['f', 'a', 'l', 's', 'e']

namespace Token

/-- How a token is written. -/
def text : Token → List Char
  | .openBrace => ['\x7b']
  | .closeBrace => ['\x7d']
  | .openBracket => ['[']
  | .closeBracket => [']']
  | .colon => [':']
  | .comma => [',']
  | .word w => w.text
  | .number literal => literal
  | .string body => '"' :: body ++ ['"']

/-- The token that a single character makes. -/
def ofPunctuation? (c : Char) : Option Token :=
  if c = '\x7b' then some .openBrace
  else if c = '\x7d' then some .closeBrace
  else if c = '[' then some .openBracket
  else if c = ']' then some .closeBracket
  else if c = ':' then some .colon
  else if c = ',' then some .comma
  else none

/-- The token that a run of characters without punctuation makes: a word or a number. -/
def ofRun? (run : List Char) : Option Token :=
  if run = Word.null.text then some (.word .null)
  else if run = Word.true.text then some (.word .true)
  else if run = Word.false.text then some (.word .false)
  else if (NumberLiteral.ofChars? run).isSome then some (.number run)
  else none

/-- The token of a string literal's body, if its escapes are well-formed. -/
def ofBody? (body : List Char) : Option Token :=
  if (Quoted.pieces? body).isSome then some (.string body) else none

end Token

/-! ## The lexer -/

/-- Where the lexer stands. The characters it has collected are in reverse order. -/
inductive LexerState where
  | between
  | run (read : List Char)
  | body (read : List Char)
  /-- Right after a backslash in a string literal. -/
  | escape (read : List Char)
  deriving DecidableEq, Repr

namespace LexerState

/-- Whether a character ends a run: white space, punctuation or a quote. -/
def endsRun (c : Char) : Bool :=
  Text.isJsonSpace c || (Token.ofPunctuation? c).isSome || c == '"'

/-- Takes a character between tokens. -/
def start (c : Char) : List Token × LexerState :=
  if Text.isJsonSpace c then ([], .between)
  else match Token.ofPunctuation? c with
    | some t => ([t], .between)
    | none => if c = '"' then ([], .body []) else ([], .run [c])

/-- Takes one character: the tokens it completes and the state after it. -/
def step : LexerState → Char → Option (List Token × LexerState)
  | .between, c => some (start c)
  | .run read, c =>
    if endsRun c then
      (Token.ofRun? read.reverse).map fun t => (t :: (start c).1, (start c).2)
    else some ([], .run (c :: read))
  | .body read, c =>
    if c = '"' then (Token.ofBody? read.reverse).map fun t => ([t], .between)
    else if c = '\\' then some ([], .escape (c :: read))
    else some ([], .body (c :: read))
  | .escape read, c => some ([], .body (c :: read))

/-- The tokens that the end of the text completes. -/
def finish : LexerState → Option (List Token)
  | .between => some []
  | .run read => (Token.ofRun? read.reverse).map ([·])
  | .body _ | .escape _ => none

/-- Reads a text to its end. -/
def lex : LexerState → List Char → Option (List Token)
  | s, [] => s.finish
  | s, c :: text => do
    let (tokens, s) ← s.step c
    return tokens ++ (← lex s text)

end LexerState

/-- The tokens of a text; `none` when some of it is no token. -/
def tokens? (text : List Char) : Option (List Token) := LexerState.lex .between text

/-- Writes tokens without spaces. -/
def writeTokens (tokens : List Token) : List Char := tokens.flatMap Token.text

end MapChain.Json
