import AugLag.Json.Numeral

/-! Writing of compact JSON. -/
namespace AugLag.Json

/-- A character below the space as an escape of four hexadecimal digits. -/
def controlEscape (c : Char) : List Char := '\\' :: 'u' :: Decimal.padLeft 4 (Nat.toDigits 16 c.toNat)

def escape (c : Char) : List Char :=
  match c with
  | '"' => ['\\', '"']
  | '\\' => ['\\', '\\']
  | '\x08' => ['\\', 'b']
  | '\x0c' => ['\\', 'f']
  | '\n' => ['\\', 'n']
  | '\r' => ['\\', 'r']
  | '\t' => ['\\', 't']
  | c => if c < ' ' then controlEscape c else [c]

def writeString (s : String) : List Char := '"' :: s.toList.flatMap escape ++ ['"']

def writeNat (n : Nat) : List Char := Nat.toDigits 10 n

def writeBool (b : Bool) : List Char := if b then "true".toList else "false".toList

/-- Texts between two marks, divided by commas. -/
def writeSequence (first last : Char) (items : List (List Char)) : List Char :=
  first :: [','].intercalate items ++ [last]

def writeArray {α : Type} (write : α → List Char) (items : Array α) : List Char :=
  writeSequence '[' ']' (items.toList.map write)

/-- An object with its members in the given order. -/
def writeObject (members : List (String × List Char)) : List Char :=
  writeSequence '{' '}' (members.map fun m => writeString m.1 ++ ':' :: m.2)

end AugLag.Json
