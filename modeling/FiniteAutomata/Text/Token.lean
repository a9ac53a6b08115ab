/-!
# Text/Token — source code in tokens

Source code is a row of words, marks and literals, with spaces between them where they would run
together.  A word goes on as long as its characters do, two colons in a row are one token, and in a
literal a backslash takes along what it marks: a letter for a character that cannot be seen, or a
code point in braces.
-/

namespace FiniteAutomata.Text

/-- A token of source code. -/
inductive Token
  /-- A name or a keyword. -/
  | word (name : List Char)
  /-- Two colons. -/
  | separator
  /-- Any other mark. -/
  | mark (c : Char)
  /-- A character between single quotes. -/
  | char (c : Char)
  /-- A text between double quotes. -/
  | text (cs : List Char)
  deriving DecidableEq

/-- The characters of words. -/
def isWordChar (c : Char) : Bool := c.isAlphanum || c == '_'

/-- The characters that are tokens of their own. -/
def marks : List Char := ['(', ')', '\x7b', '\x7d', '<', '>', '=', ';', ',', ':', '!']

/-- Whether a text goes on with a word. -/
def startsWord (text : List Char) : Bool := text.head?.any isWordChar

/-- Puts a character of a word in front of the tokens of what follows: it belongs to their first
word if that comes without a space. -/
def glue (c : Char) (following : List Char) (tokens : List Token) : List Token :=
  match startsWord following, tokens with
  | true, .word name :: tokens => .word (c :: name) :: tokens
  | _, tokens => .word [c] :: tokens

/-- The character that a backslash and a letter stand for. -/
def unescape? : Char → Option Char
  | 'n' => some '\n'
  | 'r' => some '\r'
  | 't' => some '\t'
  | '0' => some '\x00'
  | '"' => some '"'
  | '\\' => some '\\'
  | _ => none

/-- The value of a hexadecimal digit. -/
def digit? (c : Char) : Option Nat :=
  if '0' ≤ c ∧ c ≤ '9' then some (c.toNat - '0'.toNat)
  else if 'a' ≤ c ∧ c ≤ 'f' then some (c.toNat - 'a'.toNat + 10)
  else none

mutual

/-- The tokens of source code. -/
def tokens? : List Char → Option (List Token)
  | [] => some []
  | ' ' :: rest => tokens? rest
  | ':' :: ':' :: rest => (tokens? rest).map (.separator :: ·)
  | '\'' :: c :: '\'' :: rest =>
    if c = '\'' ∨ c = '\\' then none else (tokens? rest).map (.char c :: ·)
  | '"' :: rest => textTokens? [] rest
  | c :: rest =>
    if isWordChar c then (tokens? rest).map (glue c rest)
    else if c ∈ marks then (tokens? rest).map (.mark c :: ·)
    else none

/-- The tokens from within a text on, the last characters of the text first. -/
def textTokens? (read : List Char) : List Char → Option (List Token)
  | [] => none
  | '"' :: rest => (tokens? rest).map (.text read.reverse :: ·)
  | '\\' :: 'u' :: '\x7b' :: rest => codeTokens? read 0 rest
  | '\\' :: c :: rest => (unescape? c).bind fun d => textTokens? (d :: read) rest
  | c :: rest => textTokens? (c :: read) rest

/-- The tokens from within a code point in a text on. -/
def codeTokens? (read : List Char) (code : Nat) : List Char → Option (List Token)
  | [] => none
  | '\x7d' :: rest => textTokens? (Char.ofNat code :: read) rest
  | c :: rest => (digit? c).bind fun d => codeTokens? read (16 * code + d) rest

end

end FiniteAutomata.Text
