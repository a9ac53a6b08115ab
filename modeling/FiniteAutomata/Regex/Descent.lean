import FiniteAutomata.Regex.Basic
import FiniteAutomata.Regex.Glyph
import FiniteAutomata.Regex.ParseError

/-!
# Regex/Descent — reading an expression by the rules of its grammar

Another way to read: one rule for each kind of phrase, which calls those for its parts.  A rule that
fails leaves the text where it failed, and every rule around it that has a name adds what it was
reading.  A failure is committed once a bracket is open or a bar is read; a failure that is not
ends a repetition without a trace, or leaves the next alternative to be tried.  The parser
(Regex/Parser) says what was expected at once, from the state it is in.
-/

namespace FiniteAutomata.Regex

/-! ## Failures -/

/-- What a rule adds to a failure inside it. -/
inductive Context
  /-- The name of what was being read. -/
  | label (name : String)
  /-- What could have stood there. -/
  | expected (description : String)

namespace Context

def label? : Context → Option String
  | label name => some name
  | expected _ => none

def expected? : Context → Option String
  | label _ => none
  | expected description => some description

/-- The innermost label and everything that was expected, in words. -/
def describe (contexts : List Context) : String :=
  let label := (contexts.findSome? label?).map ("invalid " ++ ·)
  let expected := match contexts.filterMap expected? with
    | [] => none
    | descriptions => some ("expected " ++ ", ".intercalate descriptions)
  ", ".intercalate (label.toList ++ expected.toList)

end Context

/-- Whether other alternatives may be tried, the text that is left where the rule failed, and what
the rules around have added, the innermost first. -/
structure Failure where
  committed : Bool
  rest : List Char
  contexts : List Context

namespace Failure

/-- What was met, in words. -/
def foundText (f : Failure) : String :=
  match f.rest with
  | c :: _ => "unexpected `" ++ c.toString ++ "`"
  | [] => "unexpected end of input"

/-- What was met and what the rules have added, in words. -/
def message (f : Failure) : String :=
  let details := Context.describe f.contexts
  if details = "" then f.foundText else f.foundText ++ ": " ++ details

end Failure

/-! ## Rules -/

/-- A rule takes a value off the front of a text, or fails. -/
abbrev Rule (β : Type) := StateT (List Char) (Except Failure) β

namespace Rule

variable {β : Type}

/-- One character that passes the test. -/
def one (test : Char → Bool) : Rule Char
  | c :: rest => if test c then .ok (c, rest) else .error ⟨false, c :: rest, []⟩
  | [] => .error ⟨false, [], []⟩

def fail : Rule β := fun text => .error ⟨false, text, []⟩

/-- Nothing is left. -/
def atEnd : Rule Unit
  | [] => .ok ((), [])
  | text => .error ⟨false, text, []⟩

def skipBlanks : Rule Unit := fun text => .ok ((), text.dropWhile blanks.contains)

/-- Blanks around are skipped. -/
def spaced (p : Rule β) : Rule β := do
  skipBlanks
  let x ← p
  skipBlanks
  return x

/-- Looks ahead: nothing is taken off. -/
def peek (p : Rule β) : Rule β := fun text =>
  match p text with
  | .ok (x, _) => .ok (x, text)
  | .error f => .error { f with rest := text }

/-- The second alternative is tried if the first fails and is not committed; if it fails too, its
failure counts. -/
def orElse (p q : Rule β) : Rule β := fun text =>
  match p text with
  | .ok found => .ok found
  | .error f => if f.committed then .error f else q text

/-- A failure is final. -/
def commit (p : Rule β) : Rule β := fun text =>
  (p text).mapError fun f => { f with committed := true }

/-- Adds to what is said of a failure. -/
def context (c : Context) (p : Rule β) : Rule β := fun text =>
  (p text).mapError fun f => { f with contexts := f.contexts ++ [c] }

/-- As often as the rule takes something off; it has to, every time. -/
def manyFrom (p : Rule β) (text : List Char) : Except Failure (List β × List Char) :=
  match p text with
  | .ok (x, rest) =>
    if rest.length < text.length then
      (manyFrom p rest).map fun (xs, rest') => (x :: xs, rest')
    else
      .error ⟨true, rest, []⟩
  | .error f => if f.committed then .error f else .ok ([], text)
termination_by text.length

def many (p : Rule β) : Rule (List β) := manyFrom p

/-! ## The grammar -/

def openingBracket : Rule Char := one openings.contains

def closingBracket : Rule Char := context (.expected "closing bracket") (one closings.contains)

/-- Where no more brackets may be opened a bracket is a failure that is final. -/
def tooDeep : Rule (Regex Char) :=
  context (.expected s!"at most {maxNesting} nested brackets") <|
    context (.label "nesting") do
      let _ ← peek openingBracket
      commit fail

section Phrases

variable (group : Rule (Regex Char))

def operand : Rule (Regex Char) :=
  orElse (do let _ ← one (· == '∅'); return .empty) <|
    orElse (do let _ ← one (· == 'ε'); return .epsilon) <|
      orElse (do return .symbol (← one isSymbol)) group

def atom : Rule (Regex Char) :=
  context (.expected Expected.operandText) (context (.label "atom") (spaced (operand group)))

/-- An atom and its stars. -/
def factor : Rule (Regex Char) := do
  let r ← atom group
  let stars ← many (spaced (one (· == '*')))
  return stars.foldl (fun r _ => .star r) r

def product : Rule (Regex Char) := do
  let first ← factor group
  let others ← many (factor group)
  return others.foldl .concat first

/-- Behind a bar there must be an alternative. -/
def alternative : Rule (Regex Char) := do
  let _ ← spaced (one (· == '|'))
  commit (product group)

def union : Rule (Regex Char) := do
  let first ← product group
  let others ← many (alternative group)
  return others.foldl .union first

end Phrases

/-- A union in brackets, in which brackets may be nested `room` deep, these included.  Behind the
opening bracket there must be a union and a closing bracket. -/
def group : (room : Nat) → Rule (Regex Char)
  | 0 => tooDeep
  | room + 1 => do
    let _ ← openingBracket
    commit do
      let r ← union (group room)
      let _ ← closingBracket
      return r

/-- The whole text. -/
def expression : Rule (Regex Char) := do
  let r ← spaced (union (group maxNesting))
  atEnd
  return r

end Rule

/-- Reads a text by the rules.  An error is a message and the number of bytes before the place where
the rules failed. -/
def descend (text : String) : Except (String × Nat) (Regex Char) :=
  match Rule.expression text.toList with
  | .ok (r, _) => .ok r
  | .error f => .error (f.message, text.utf8ByteSize - (String.ofList f.rest).utf8ByteSize)

end FiniteAutomata.Regex
