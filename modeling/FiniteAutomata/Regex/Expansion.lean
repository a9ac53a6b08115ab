import FiniteAutomata.Regex.Parser
import FiniteAutomata.Text.Quoted

/-!
# Regex/Expansion — an expression as source code that builds it

An expression literal expands to a block of tokens that names the constructors of the expression,
and a text that is no expression to an error with its message as a quoted text.
-/

namespace FiniteAutomata.Regex

/-- The path to a constructor. -/
def constructorPath (name : String) : List Char := (":: relang :: Regex :: " ++ name).toList

/-- The constructor calls that build an expression. -/
def calls : Regex Char → List Char
  | empty => constructorPath "Empty"
  | epsilon => constructorPath "Epsilon"
  | symbol c => constructorPath "Char" ++ " ('".toList ++ [c] ++ "')".toList
  | concat l r => constructorPath "concat" ++ " (".toList ++ calls l ++ " , ".toList ++ calls r ++ [')']
  | union l r => constructorPath "union" ++ " (".toList ++ calls l ++ " , ".toList ++ calls r ++ [')']
  | star r => constructorPath "star" ++ " (".toList ++ calls r ++ [')']

/-- The block that builds an expression. -/
def block (r : Regex Char) : List Char :=
  "\x7b let regex : :: relang :: Regex < char > = ".toList ++ calls r ++ " ; regex \x7d".toList

/-- The error that a text which is no expression leaves in the source. -/
def compileError (e : ParseError) : List Char :=
  ":: core :: compile_error ! \x7b ".toList ++ Text.quoted ("invalid regex: " ++ e.located).toList ++
    " \x7d".toList

/-- What an expression literal expands to. -/
def expansion (text : String) : String :=
  String.ofList <| match parse text with
    | .ok r => block r
    | .error e => compileError e

end FiniteAutomata.Regex
