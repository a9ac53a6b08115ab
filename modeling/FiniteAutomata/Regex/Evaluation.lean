import FiniteAutomata.Regex.Basic
import FiniteAutomata.Text.Token

/-!
# Regex/Evaluation — the expression that source code builds

Source code for an expression names a constructor by its path and applies it to arguments in
parentheses, each of which is again such code or a literal character.  It is evaluated as it is
read.
-/

namespace FiniteAutomata.Regex

open Text (Token)

/-- What an argument stands for. -/
inductive Value
  | char (c : Char)
  | regex (r : Regex Char)

/-- The constructors by name, applied to all of their arguments. -/
def construct? (name : List Char) : List Value → Option (Regex Char)
  | [] =>
    if name = "Empty".toList then some empty
    else if name = "Epsilon".toList then some epsilon
    else none
  | [.char c] => if name = "Char".toList then some (symbol c) else none
  | [.regex r] => if name = "star".toList then some (star r) else none
  | [.regex l, .regex r] =>
    if name = "concat".toList then some (concat l r)
    else if name = "union".toList then some (union l r)
    else none
  | _ => none

/-- Reads arguments up to the closing parenthesis, with commas between them. -/
def readArguments (read : List Token → Option (Value × List Token)) :
    Nat → List Token → Option (List Value × List Token)
  | 0, _ => none
  | fuel + 1, tokens => do
    match ← read tokens with
    | (v, .mark ',' :: tokens) =>
      let (vs, tokens) ← readArguments read fuel tokens
      return (v :: vs, tokens)
    | (v, .mark ')' :: tokens) => return ([v], tokens)
    | _ => none

/-- Reads an argument: a literal character, or a path to a constructor and its arguments, if it has
some.  Nothing is nested deeper than `fuel`, and nothing has more arguments. -/
def readValue : Nat → List Token → Option (Value × List Token)
  | _ + 1, .char c :: tokens => some (.char c, tokens)
  | fuel + 1, .separator :: .word root :: .separator :: .word type :: .separator :: .word name ::
      tokens =>
    if root = "relang".toList ∧ type = "Regex".toList then
      match tokens with
      | .mark '(' :: tokens => do
        let (args, tokens) ← readArguments (readValue fuel) fuel tokens
        return (.regex (← construct? name args), tokens)
      | tokens => (construct? name []).map fun r => (.regex r, tokens)
    else none
  | _, _ => none

/-- The expression that source code builds. -/
def evaluate? (code : List Char) : Option (Regex Char) := do
  let tokens ← Text.tokens? code
  match ← readValue tokens.length tokens with
  | (.regex r, []) => some r
  | _ => none

end FiniteAutomata.Regex
