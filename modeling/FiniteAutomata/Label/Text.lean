import FiniteAutomata.Label.Basic
import FiniteAutomata.Text.Quoted

/-!
# Label/Text — labels in writing

A pair is written in parentheses and a set in braces, texts are quoted, and any other head is
followed by its arguments in parentheses, if it has some.
-/

namespace FiniteAutomata

/-- A whole number in decimal digits, with a sign if it is negative. -/
def Text.decimal : Int → List Char
  | .ofNat n => Nat.toDigits 10 n
  | .negSucc n => '-' :: Nat.toDigits 10 (n + 1)

/-- The word a head is written with. -/
def Head.word : Head → List Char
  | unit => "()".toList
  | bool true => "true".toList
  | bool false => "false".toList
  | int i => Text.decimal i
  | text s => Text.quoted s.toList
  | absent => "None".toList
  | present => "Some".toList
  | pair | set => []
  | unionStart | starStart => "Start".toList
  | unionLeft | concatLeft => "Left".toList
  | unionRight | concatRight => "Right".toList
  | starInner => "Inner".toList

/-- A head with the texts of its arguments. -/
def Head.apply (h : Head) (args : List (List Char)) : List Char :=
  let listed := [',', ' '].intercalate args
  match h with
  | pair => '(' :: listed ++ [')']
  | set => '\x7b' :: listed ++ ['\x7d']
  | _ => if args.isEmpty then h.word else h.word ++ '(' :: listed ++ [')']

namespace Label

mutual

/-- The text of a label. -/
def text : Label → List Char
  | node h args => h.apply (texts args)

/-- The texts of several labels. -/
def texts : List Label → List (List Char)
  | [] => []
  | a :: as => text a :: texts as

end

end Label

end FiniteAutomata
