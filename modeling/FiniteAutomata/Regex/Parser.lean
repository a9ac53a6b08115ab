import FiniteAutomata.Regex.Basic
import FiniteAutomata.Regex.Glyph
import FiniteAutomata.Regex.ParseError

/-!
# Regex/Parser — reading an expression, character by character

The parser holds one `Level` for each open bracket and one for the text outside all of them.  A
level remembers the union of its finished alternatives and the alternative it is in; the last factor
of that alternative is kept apart, because a star applies to it alone.  Both operators associate to
the left.  Every character either moves the parser on or is the place of the error.
-/

namespace FiniteAutomata.Regex

/-- An unfinished alternative: the factors before the last, multiplied, and the last one. -/
structure Alternative where
  before : Option (Regex Char)
  last : Regex Char

namespace Alternative

/-- The product of all factors. -/
def value (a : Alternative) : Regex Char :=
  match a.before with
  | some l => .concat l a.last
  | none => a.last

/-- One more star on the last factor. -/
def star (a : Alternative) : Alternative := { a with last := .star a.last }

end Alternative

/-- What is known of one bracket level: the union of the finished alternatives and the alternative
under way, if it has a factor yet. -/
structure Level where
  before : Option (Regex Char)
  current : Option Alternative

namespace Level

/-- Nothing is known yet. -/
def start : Level := ⟨none, none⟩

/-- The value of the level if the alternative `a` is its last. -/
def close (level : Level) (a : Alternative) : Regex Char :=
  match level.before with
  | some l => .union l a.value
  | none => a.value

/-- One more factor. -/
def push (level : Level) (r : Regex Char) : Level :=
  { level with current := some ⟨level.current.map Alternative.value, r⟩ }

end Level

/-- The innermost level and those around it, from the inside out. -/
structure Reading where
  level : Level
  outer : List Level

namespace Reading

/-- Nothing is read yet. -/
def start : Reading := ⟨.start, []⟩

/-- The number of open brackets. -/
def depth (s : Reading) : Nat := s.outer.length

/-- What could come next, if the next character cannot be used. -/
def expected (s : Reading) : Expected :=
  match s.level.current with
  | none => if s.depth < maxNesting then .operand s.depth else .shallower
  | some _ => if s.depth = 0 then .ending else .closing s.depth

/-- One more factor in the innermost level. -/
def push (s : Reading) (r : Regex Char) : Reading := { s with level := s.level.push r }

/-- Reads one character. -/
def step (s : Reading) (c : Char) : Except Expected Reading :=
  match Glyph.ofChar c with
  | .blank => .ok s
  | .emptySet => .ok (s.push .empty)
  | .emptyWord => .ok (s.push .epsilon)
  | .symbol => .ok (s.push (.symbol c))
  | .opening =>
    if s.depth < maxNesting then .ok ⟨.start, s.level :: s.outer⟩ else .error .shallower
  | .star =>
    match s.level.current with
    | some a => .ok { s with level := { s.level with current := some a.star } }
    | none => .error s.expected
  | .bar =>
    match s.level.current with
    | some a => .ok { s with level := ⟨some (s.level.close a), none⟩ }
    | none => .error s.expected
  | .closing =>
    match s.level.current, s.outer with
    | some a, level :: outer => .ok ⟨level.push (s.level.close a), outer⟩
    | _, _ => .error s.expected
  | .other => .error s.expected

/-- The value of the whole text, if it may end here. -/
def finish (s : Reading) : Except Expected (Regex Char) :=
  match s.level.current, s.outer with
  | some a, [] => .ok (s.level.close a)
  | _, _ => .error s.expected

/-- Reads the characters that are left, of which the first comes after `offset` bytes. -/
def readFrom (s : Reading) (offset : Nat) : List Char → Except ParseError (Regex Char)
  | [] => s.finish.mapError (⟨none, offset, ·⟩)
  | c :: cs =>
    match s.step c with
    | .ok s' => s'.readFrom (offset + c.utf8Size) cs
    | .error e => .error ⟨some c, offset, e⟩

end Reading

/-- The expression a text stands for. -/
def parse (text : String) : Except ParseError (Regex Char) := Reading.start.readFrom 0 text.toList

end FiniteAutomata.Regex
