/-! Reading of JSON from left to right. A reader is told what kind of value to expect, and the first fault ends the
reading: a fault is reported where it is met, whatever follows it in the text. -/
namespace AugLag.Json

/-- Why a text cannot be read. -/
inductive Fault
  /-- The text ends before the value does. -/
  | unexpectedEnd
  | invalid
deriving DecidableEq, Repr

/-- Reads a value from the front of a text. -/
abbrev Reader (α : Type) := StateT (List Char) (Except Fault) α

def isSpace (c : Char) : Bool := c == ' ' || c == '\n' || c == '\t' || c == '\r'

/-- The next character that is no space. It is not taken. -/
def peek : Reader (Option Char) := do
  modify fun text => text.dropWhile isSpace
  return (← get).head?

/-- Passes over one character. -/
def advance : Reader Unit := modify fun text => text.drop 1

/-- Takes the next character. -/
def next : Reader Char := do
  match ← get with
  | [] => throw .unexpectedEnd
  | c :: rest => set rest; return c

/-- Expects a mark after spaces. -/
def mark (c : Char) : Reader Unit := do
  match ← peek with
  | none => throw .unexpectedEnd
  | some d => if d = c then advance else throw .invalid

/-- Expects the letters of a word. -/
def word : List Char → Reader Unit
  | [] => return
  | c :: rest => do
    if (← next) = c then word rest else throw .invalid

/-- Changes a state until the step gives `none`, in at most `count` steps. -/
def loop {σ : Type} (step : σ → Reader (Option σ)) : Nat → σ → Reader σ
  | 0, _ => throw .invalid
  | count + 1, s => do
    match ← step s with
    | some s => loop step count s
    | none => return s

/-- Repeats a step that takes at least one character each time. -/
def repeatStep {σ : Type} (step : σ → Reader (Option σ)) (s : σ) : Reader σ := do
  loop step ((← get).length + 1) s

/-! Numbers. -/

/-- A number as it is written: `digits * 10 ^ exponent` with a sign. -/
structure Literal where
  negative : Bool
  digits : Nat
  exponent : Int
  /-- There is neither a fraction nor an exponent. -/
  whole : Bool
deriving DecidableEq, Repr

/-- The value of decimal digits. -/
def digitsValue (digits : List Char) : Nat := digits.foldl (fun n c => 10 * n + (c.toNat - '0'.toNat)) 0

/-- Takes at least one digit. -/
def digits : Reader (List Char) := do
  let text ← get
  let found := text.takeWhile Char.isDigit
  if found.isEmpty then throw (if text.isEmpty then .unexpectedEnd else .invalid)
  set (text.dropWhile Char.isDigit)
  return found

/-- Takes a character if it is the next one. -/
def accept (test : Char → Bool) : Reader (Option Char) := do
  match ← get with
  | [] => return none
  | c :: rest =>
    if test c then
      set rest
      return some c
    else return none

/-- The number at the front of a text. A zero in front of other digits is not allowed. -/
def literal : Reader Literal := do
  let negative := (← accept (· == '-')).isSome
  let whole ← digits
  if whole.head? = some '0' && 1 < whole.length then throw .invalid
  let fraction ← match ← accept (· == '.') with
    | some _ => digits
    | none => pure []
  let exponent ← match ← accept fun c => c == 'e' || c == 'E' with
    | some _ => do
      let sign ← accept fun c => c == '+' || c == '-'
      let size := digitsValue (← digits)
      pure (some (if sign = some '-' then -(size : Int) else size))
    | none => pure none
  return {
    negative
    digits := digitsValue (whole ++ fraction)
    exponent := exponent.getD 0 - fraction.length
    whole := fraction.isEmpty && exponent.isNone }

/-! Strings. -/

def hexDigit? (c : Char) : Option Nat :=
  if c.isDigit then some (c.toNat - '0'.toNat)
  else if 'a' ≤ c && c ≤ 'f' then some (c.toNat - 'a'.toNat + 10)
  else if 'A' ≤ c && c ≤ 'F' then some (c.toNat - 'A'.toNat + 10)
  else none

/-- The four hexadecimal digits of an escape. The text ends too early if fewer than four bytes are left of it. -/
def hexEscape : Reader Nat := do
  let text ← get
  let found := text.take 4
  if (String.ofList found).utf8ByteSize < 4 then throw .unexpectedEnd
  set (text.drop 4)
  match found.mapM hexDigit? with
  | some [a, b, c, d] => return ((a * 16 + b) * 16 + c) * 16 + d
  | _ => throw .invalid

/-- The character that a letter stands for behind a backslash. -/
def escaped? : Char → Option Char
  | '"' => some '"'
  | '\\' => some '\\'
  | '/' => some '/'
  | 'b' => some '\x08'
  | 'f' => some '\x0c'
  | 'n' => some '\n'
  | 'r' => some '\r'
  | 't' => some '\t'
  | _ => none

def isLeading (unit : Nat) : Bool := 0xD800 ≤ unit && unit ≤ 0xDBFF

def isTrailing (unit : Nat) : Bool := 0xDC00 ≤ unit && unit ≤ 0xDFFF

/-- The character of a numeric escape, behind its letter. Characters beyond 16 bits are written as two escapes. -/
def unicodeEscape : Reader Char := do
  let unit ← hexEscape
  if isTrailing unit then throw .invalid
  if isLeading unit then
    word ['\\', 'u']
    let second ← hexEscape
    if !isTrailing second then throw .invalid
    return Char.ofNat ((unit - 0xD800) * 0x400 + (second - 0xDC00) + 0x10000)
  else return Char.ofNat unit

/-- Reads one more character of a string. A quote ends the string. -/
def stringStep (s : String) : Reader (Option String) := do
  match ← next with
  | '"' => return none
  | '\\' =>
    match ← next with
    | 'u' => return some (s.push (← unicodeEscape))
    | c =>
      match escaped? c with
      | some c => return some (s.push c)
      | none => throw .invalid
  | c => if c < ' ' then throw .invalid else return some (s.push c)

/-- The rest of a string behind its first quote. -/
def stringBody : Reader String := repeatStep stringStep ""

/-! Values without parts. -/

inductive Atom
  | null
  | bool (b : Bool)
  | number (n : Literal)
  | string (s : String)

def atom : Reader Atom := do
  match ← peek with
  | none => throw .unexpectedEnd
  | some 'n' => word ['n', 'u', 'l', 'l']; return .null
  | some 't' => word ['t', 'r', 'u', 'e']; return .bool true
  | some 'f' => word ['f', 'a', 'l', 's', 'e']; return .bool false
  | some '"' => advance; return .string (← stringBody)
  | some c => if c == '-' || c.isDigit then return .number (← literal) else throw .invalid

/-- Reads a value of one kind. A value of another kind is read before it is refused. -/
def ofKind {α : Type} (pick : Atom → Option α) : Reader α := do
  match pick (← atom) with
  | some a => return a
  | none => throw .invalid

def bool : Reader Bool := ofKind fun
  | .bool b => some b
  | _ => none

def string : Reader String := ofKind fun
  | .string s => some s
  | _ => none

def number {α : Type} (convert : Literal → Option α) : Reader α := ofKind fun
  | .number n => convert n
  | _ => none

/-- A natural number below a bound. Negative zero is no natural number. -/
def natBelow (bound : Nat) : Reader Nat :=
  number fun n => if n.whole && !n.negative && n.digits < bound then some n.digits else none

/-! Arrays, objects and records. -/

/-- One more item of a list, or its end. Items are divided by commas; the flag tells whether one came before. -/
def sequenceStep {σ : Type} (close : Char) (item : σ → Reader σ) (s : Bool × σ) : Reader (Option (Bool × σ)) := do
  match ← peek with
  | none => throw .unexpectedEnd
  | some c =>
    if c = close then
      advance
      return none
    else
      if s.1 then mark ','
      return some (true, ← item s.2)

/-- The items of a list up to its closing mark. -/
def sequence {σ : Type} (close : Char) (item : σ → Reader σ) (s : σ) : Reader σ := do
  return (← repeatStep (sequenceStep close item) (false, s)).2

def array {α : Type} (element : Reader α) : Reader (Array α) := do
  match ← peek with
  | some '[' =>
    advance
    sequence ']' (fun found => do return found.push (← element)) #[]
  | _ => ofKind fun _ => none

/-- Reads a quoted name, by a reader for what follows the first quote. -/
def quoted {α : Type} (rest : Reader α) : Reader α := do
  mark '"'
  rest

/-- Skips one character of a string that is passed over. Numeric escapes are not combined. -/
def skipStringStep (_ : Unit) : Reader (Option Unit) := do
  match ← next with
  | '"' => return none
  | '\\' =>
    let c ← next
    if c = 'u' then
      let _ ← hexEscape
      return some ()
    else if (escaped? c).isSome then return some ()
    else throw .invalid
  | c => if c < ' ' then throw .invalid else return some ()

def skipStringBody : Reader Unit := repeatStep skipStringStep ()

/-- Passes over a number. One that ends too early is invalid here. -/
def skipLiteral : Reader Unit := fun text =>
  match literal.run text with
  | .ok (_, rest) => .ok ((), rest)
  | .error _ => .error .invalid

/-- Passes over a value that is nested at most to the given depth. -/
def skip : Nat → Reader Unit
  | 0 => throw .invalid
  | depth + 1 => do
    match ← peek with
    | some '[' =>
      advance
      sequence ']' (fun _ => skip depth) ()
    | some '{' =>
      advance
      sequence '}' (fun _ => do quoted skipStringBody; mark ':'; skip depth) ()
    | some '"' => advance; skipStringBody
    | some c =>
      if c == '-' || c.isDigit then skipLiteral
      else do
        let _ ← atom
    | none => throw .unexpectedEnd

/-- Passes over a value. -/
def skipValue : Reader Unit := do
  skip ((← get).length + 1)

/-- The fields of a record in order, and how each of them is filled in. -/
structure Fields (σ : Type) where
  names : List String
  read : String → σ → Reader σ

namespace Fields

variable {σ : Type}

/-- Fills in a field that was not met before. -/
def fill (fields : Fields σ) (name : String) (s : List String × σ) : Reader (List String × σ) := do
  return (name :: s.1, ← fields.read name s.2)

/-- A field with its name. A name that is met twice is refused, and an unknown one is passed over. -/
def member (fields : Fields σ) (s : List String × σ) : Reader (List String × σ) := do
  let name ← quoted stringBody
  if s.1.contains name then throw .invalid
  mark ':'
  if fields.names.contains name then fields.fill name s
  else
    skipValue
    return s

/-- A field without its name, told by its place. -/
def element (fields : Fields σ) (s : List String × σ) : Reader (List String × σ) :=
  match fields.names[s.1.length]? with
  | some name => fields.fill name s
  | none => throw .invalid

/-- The record, and the names of the fields that were met. A record is an object, or an array of its fields. -/
def record (fields : Fields σ) (empty : σ) : Reader (List String × σ) := do
  match ← peek with
  | some '{' =>
    advance
    sequence '}' fields.member ([], empty)
  | some '[' =>
    advance
    sequence ']' fields.element ([], empty)
  | _ => ofKind fun _ => none

/-- A record of which no field may be missing. -/
def complete (fields : Fields σ) (empty : σ) : Reader σ := do
  let (found, s) ← fields.record empty
  if fields.names.all found.contains then return s else throw .invalid

end Fields

/-- Reads a text that holds one value and spaces. -/
def read {α : Type} (reader : Reader α) (text : String) : Except Fault α := do
  let (a, rest) ← reader.run text.toList
  if rest.all isSpace then return a else throw .invalid

/-- Reads bytes that must be UTF-8. -/
def readBytes {α : Type} (reader : Reader α) (bytes : ByteArray) : Except Fault α :=
  match String.fromUTF8? bytes with
  | some text => read reader text
  | none => .error .invalid

end AugLag.Json
