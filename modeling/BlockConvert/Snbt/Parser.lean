import BlockConvert.Snbt.Printer
import BlockConvert.Tag.TypedList
import BlockConvert.Text.Blank
import BlockConvert.Text.Quoted

set_option autoImplicit false

/-!
# Reading tags

A recursive descent over the text that is left. Every bracket and every comma takes a character, so
the length of the text bounds both the nesting of values and the number of items in one of them;
`value` and `items` count down from such bounds. A fault keeps the text at which it was found, and
`SnbtError` tells its position in bytes from the start.
-/

namespace BlockConvert

namespace Snbt

inductive Fault where
  | unexpectedEnd
  | unexpected (found : Char) (after : List Char)
  | mixedList (first second : Kind)
  | arrayElement (array : Kind) (value : Tag)
deriving DecidableEq

/-- Reads from the start of a text and gives what is left of it. -/
abbrev Parser (α : Type) : Type := List Char → Except Fault (α × List Char)

def unexpected : List Char → Fault
  | [] => .unexpectedEnd
  | c :: rest => .unexpected c rest

def expect (c : Char) (s : List Char) : Except Fault (List Char) :=
  match Text.skip Text.isBlank s with
  | [] => .error .unexpectedEnd
  | d :: rest => if d = c then .ok rest else .error (.unexpected d rest)

/-- The text up to a closing quote. A backslash takes the next character as it is, but `n` for a
line break. -/
def quoted (quote : Char) : Parser (List Char)
  | [] => .error .unexpectedEnd
  | ['\\'] => .error .unexpectedEnd
  | '\\' :: d :: rest =>
    (quoted quote rest).map fun (text, r) => ((if d = 'n' then '\n' else d) :: text, r)
  | c :: rest =>
    if c = quote then .ok ([], rest)
    else (quoted quote rest).map fun (text, r) => (c :: text, r)

def bare : Parser (List Char)
  | [] => .error .unexpectedEnd
  | c :: rest =>
    if isBare c then .ok (c :: rest.takeWhile isBare, rest.dropWhile isBare)
    else .error (.unexpected c rest)

def isQuote (c : Char) : Bool := c == '"' || c == '\''

def keyChars : Parser (List Char) := fun s =>
  match Text.skip Text.isBlank s with
  | [] => .error .unexpectedEnd
  | c :: rest => if isQuote c then quoted c rest else bare (c :: rest)

def key : Parser String := fun s => (keyChars s).map fun (text, r) => (String.ofList text, r)

def items {α : Type} (item : Parser α) (close : Char) : (bound : Nat) → Parser (List α)
  | 0, _ => .error .unexpectedEnd
  | bound + 1, s => do
    let (x, afterItem) ← item s
    match Text.skip Text.isBlank afterItem with
    | [] => .error .unexpectedEnd
    | c :: rest =>
      if c = ',' then do
        let (more, r) ← items item close bound rest
        return (x :: more, r)
      else if c = close then return ([x], rest)
      else .error (.unexpected c rest)

def body {α : Type} (item : Parser α) (close : Char) : Parser (List α) := fun s =>
  match Text.skip Text.isBlank s with
  | [] => items item close s.length s
  | c :: rest => if c = close then .ok ([], rest) else items item close s.length s

def entry (value : Parser Tag) : Parser (String × Tag) := fun s => do
  let (k, afterKey) ← key s
  let afterColon ← expect ':' afterKey
  let (v, r) ← value afterColon
  return ((k, v), r)

def elementsOf {α : Type} (array : Kind) (read? : Tag → Option α) :
    List Tag → Except Fault (List α)
  | [] => .ok []
  | t :: rest =>
    match read? t with
    | none => .error (.arrayElement array t)
    | some v => (elementsOf array read? rest).map (v :: ·)

def byteElement? : Tag → Option Int8
  | .byte v => some v
  | _ => none

def intElement? : Tag → Option Int32
  | .int v => some v
  | _ => none

def longElement? : Tag → Option Int64
  | .long v => some v
  | .int v => some v.toInt64
  | _ => none

def listOf (elements : List Tag) : Except Fault Tag :=
  match elements with
  | [] => .ok (.list none [])
  | t :: _ =>
    match elements.find? fun u => u.kind != t.kind with
    | some u => .error (.mixedList t.kind u.kind)
    | none => .ok (.list (some t.kind) elements)

def arrayOf (array : Kind) (elements : List Tag) : Except Fault Tag :=
  match array with
  | .byteArray => (elementsOf array byteElement? elements).map .byteArray
  | .intArray => (elementsOf array intElement? elements).map .intArray
  | _ => (elementsOf array longElement? elements).map .longArray

def arrayMark? : List Char → Option (Kind × List Char)
  | 'B' :: ';' :: rest => some (.byteArray, rest)
  | 'I' :: ';' :: rest => some (.intArray, rest)
  | 'L' :: ';' :: rest => some (.longArray, rest)
  | _ => none

def listOrArray (value : Parser Tag) : Parser Tag := fun s =>
  match arrayMark? s with
  | some (array, rest) => do
    let (elements, r) ← body value ']' rest
    let t ← arrayOf array elements
    return (t, r)
  | none => do
    let (elements, r) ← body value ']' s
    let t ← listOf elements
    return (t, r)

def value : (bound : Nat) → Parser Tag
  | 0, _ => .error .unexpectedEnd
  | bound + 1, s =>
    match Text.skip Text.isBlank s with
    | [] => .error .unexpectedEnd
    | c :: rest =>
      if c = '\x7b' then
        (body (entry (value bound)) '\x7d' rest).map fun (entries, r) =>
          (.compound (Table.ofEntries entries), r)
      else if c = '[' then listOrArray (value bound) rest
      else if isQuote c then
        (quoted c rest).map fun (text, r) => (.string (String.ofList text), r)
      else (bare (c :: rest)).map fun (word, r) => (classify word, r)

def byteSize : List Char → Nat
  | [] => 0
  | c :: rest => c.utf8Size + byteSize rest

end Snbt

inductive SnbtError where
  | unexpectedEnd
  | unexpected (found : Char) (position : Nat)
  | mixedList (first second : Kind)
  | arrayElement (array : Kind) (value : Tag)
  | trailing (position : Nat)
deriving DecidableEq

namespace SnbtError

def ofFault (text : List Char) : Snbt.Fault → SnbtError
  | .unexpectedEnd => .unexpectedEnd
  | .unexpected c after => .unexpected c (Snbt.byteSize text - Snbt.byteSize (c :: after))
  | .mixedList a b => .mixedList a b
  | .arrayElement k t => .arrayElement k t

def message : SnbtError → String
  | .unexpectedEnd => "unexpected end of input"
  | .unexpected c position =>
    "unexpected character " ++ Text.quotedChar c ++ " at position " ++ toString position
  | .mixedList a b => "list mixes " ++ a.name ++ " and " ++ b.name ++ " elements"
  | .arrayElement k t => t.snbt ++ " is not a valid " ++ k.name ++ " element"
  | .trailing position => "trailing data at position " ++ toString position

end SnbtError

namespace Snbt

def readChars (text : List Char) : Except SnbtError Tag :=
  match value (text.length + 1) text with
  | .error fault => .error (SnbtError.ofFault text fault)
  | .ok (t, rest) =>
    match Text.skip Text.isBlank rest with
    | [] => .ok t
    | after => .error (.trailing (byteSize text - byteSize after))

end Snbt

/-- Reads a text that holds one tag and blanks around it. -/
def Tag.ofSnbt (text : String) : Except SnbtError Tag := Snbt.readChars text.toList

end BlockConvert
