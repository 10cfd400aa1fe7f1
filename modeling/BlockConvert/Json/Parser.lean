import BlockConvert.Json.Basic
import BlockConvert.Decimal.Reader
import BlockConvert.Text.Blank

set_option autoImplicit false

/-!
# Reading JSON

Strict JSON: four blank characters, no comments, no trailing commas, no leading zeros, no raw
controls in texts, nothing but blanks after the value. The length of the text bounds nesting and the
number of items, as every bracket and every comma takes a character.
-/

namespace BlockConvert.Json

abbrev Parser (α : Type) : Type := List Char → Option (α × List Char)

def isBlank (c : Char) : Bool := c == ' ' || c == '\n' || c == '\r' || c == '\t'

/-- A piece of a text: a character, or a 16-bit unit that was escaped by number. -/
inductive Piece where
  | char (c : Char)
  | unit (n : Nat)

def hexValue? (c : Char) : Option Nat :=
  if '0' ≤ c ∧ c ≤ '9' then some (c.toNat - '0'.toNat)
  else if 'a' ≤ c ∧ c ≤ 'f' then some (c.toNat - 'a'.toNat + 10)
  else if 'A' ≤ c ∧ c ≤ 'F' then some (c.toNat - 'A'.toNat + 10)
  else none

def simpleEscape? (c : Char) : Option Char :=
  match c with
  | '"' => some '"'
  | '\\' => some '\\'
  | '/' => some '/'
  | 'b' => some '\x08'
  | 'f' => some '\x0c'
  | 'n' => some '\n'
  | 'r' => some '\r'
  | 't' => some '\t'
  | _ => none

def pieces : Parser (List Piece)
  | [] => none
  | '"' :: rest => some ([], rest)
  | '\\' :: 'u' :: a :: b :: c :: d :: rest => do
    let n ← hexValue? a
    let m ← hexValue? b
    let k ← hexValue? c
    let l ← hexValue? d
    let (more, r) ← pieces rest
    return (.unit (n * 4096 + m * 256 + k * 16 + l) :: more, r)
  | '\\' :: e :: rest => do
    let c ← simpleEscape? e
    let (more, r) ← pieces rest
    return (.char c :: more, r)
  | c :: rest =>
    if c.toNat < 0x20 ∨ c = '\\' then none
    else do
      let (more, r) ← pieces rest
      return (.char c :: more, r)

/-- The characters that pieces denote: a high surrogate needs a low one right after it, and a low
one needs a high one. -/
def joinPieces : List Piece → Option (List Char)
  | [] => some []
  | .char c :: rest => (joinPieces rest).map (c :: ·)
  | .unit n :: rest =>
    if 0xD800 ≤ n ∧ n < 0xDC00 then
      match rest with
      | .unit m :: more =>
        if 0xDC00 ≤ m ∧ m < 0xE000 then
          (joinPieces more).map (Char.ofNat (0x10000 + (n - 0xD800) * 1024 + (m - 0xDC00)) :: ·)
        else none
      | _ => none
    else if 0xDC00 ≤ n ∧ n < 0xE000 then none
    else (joinPieces rest).map (Char.ofNat n :: ·)

def textBody : Parser (Option String) := fun s => do
  let (ps, r) ← pieces s
  return ((joinPieces ps).map String.ofList, r)

def digits1 : Parser (List Char) := fun s =>
  let ds := s.takeWhile Char.isDigit
  if ds.isEmpty then none else some (ds, s.dropWhile Char.isDigit)

/-- The digits before the point: a zero alone, or digits that do not begin with one. -/
def wholeDigits : Parser (List Char)
  | '0' :: rest =>
    match rest with
    | c :: _ => if c.isDigit then none else some (['0'], rest)
    | [] => some (['0'], rest)
  | s => digits1 s

def fractionDigits : Parser (Option (List Char))
  | '.' :: rest => (digits1 rest).map fun (ds, r) => (some ds, r)
  | s => some (none, s)

def exponentValue : Parser (Option Int)
  | c :: rest =>
    if c = 'e' ∨ c = 'E' then do
      let (negative, unsigned) := Decimal.splitSign rest
      let (ds, r) ← digits1 unsigned
      let n ← Decimal.foldDigits 0 ds
      return (some (if negative then -(n : Int) else n), r)
    else some (none, c :: rest)
  | [] => some (none, [])

/-- Reads digits as long as their number is held in 64 bits; the rest of the digits is left. -/
def gather (acc : Nat) : List Char → Nat × List Char
  | [] => (acc, [])
  | c :: rest =>
    let next := acc * 10 + (c.toNat - '0'.toNat)
    if Decimal.isUnsigned 64 next then gather next rest else (acc, c :: rest)

def greatestPower : Int := 308

/-- Whether a significand with an exponent is within the range of doubles. The significand and the
power of ten are rounded on their own, and then their product. -/
def isInRange (significand : Nat) (exponent : Int) : Bool :=
  if significand = 0 ∨ exponent < 0 then true
  else if greatestPower < exponent then false
  else
    let double := Decimal.Format.double
    (double.product (double.nearest significand)
      (double.nearest (Decimal.tenTo exponent.toNat))).isFinite

/-- The number that a sign, digits and an exponent denote. Digits beyond 64 bits count as places
before the point and do not count behind it. -/
def numberOf (negative : Bool) (whole : List Char) (fraction : Option (List Char))
    (exponent : Option Int) : Option JsonNumber :=
  let (n, beyond) := gather 0 whole
  let value : Int := if negative then -(n : Int) else n
  if beyond.isEmpty ∧ fraction.isNone ∧ exponent.isNone ∧ ¬(negative ∧ n = 0) ∧
      (Decimal.isSigned 64 value ∨ Decimal.isUnsigned 64 value) then
    some (.integer value)
  else
    let behind := fraction.getD []
    let (significand, ignored) := gather n behind
    let places : Int := (beyond.length : Int) - (behind.length - ignored.length : Nat)
    if isInRange significand (exponent.getD 0 + places) then some .double else none

def numberBody : Parser (Option JsonNumber) := fun s => do
  let (negative, unsigned) := match s with
    | '-' :: rest => (true, rest)
    | _ => (false, s)
  let (whole, r) ← wholeDigits unsigned
  let (fraction, r) ← fractionDigits r
  let (exponent, r) ← exponentValue r
  return (numberOf negative whole fraction exponent, r)

def items {α : Type} (item : Parser α) (close : Char) : (bound : Nat) → Parser (List α)
  | 0, _ => none
  | bound + 1, s => do
    let (x, afterItem) ← item s
    match Text.skip isBlank afterItem with
    | [] => none
    | c :: rest =>
      if c = ',' then do
        let (more, r) ← items item close bound rest
        return (x :: more, r)
      else if c = close then return ([x], rest)
      else none

def body {α : Type} (item : Parser α) (close : Char) : Parser (List α) := fun s =>
  match Text.skip isBlank s with
  | [] => none
  | c :: rest => if c = close then some ([], rest) else items item close s.length s

def member (value : Parser Json) : Parser (Option String × Json) := fun s =>
  match Text.skip isBlank s with
  | '"' :: rest => do
    let (k, afterKey) ← textBody rest
    match Text.skip isBlank afterKey with
    | ':' :: afterColon => do
      let (v, r) ← value afterColon
      return ((k, v), r)
    | _ => none
  | _ => none

def value : (bound : Nat) → Parser Json
  | 0, _ => none
  | bound + 1, s =>
    match Text.skip isBlank s with
    | '\x7b' :: rest => (body (member (value bound)) '\x7d' rest).map fun (ms, r) => (.object ms, r)
    | '[' :: rest => (body (value bound) ']' rest).map fun (js, r) => (.array js, r)
    | '"' :: rest => (textBody rest).map fun (t, r) => (.text t, r)
    | 't' :: 'r' :: 'u' :: 'e' :: rest => some (.bool true, rest)
    | 'f' :: 'a' :: 'l' :: 's' :: 'e' :: rest => some (.bool false, rest)
    | 'n' :: 'u' :: 'l' :: 'l' :: rest => some (.null, rest)
    | other => (numberBody other).map fun (n, r) => (.number n, r)

def parse? (text : String) : Option Json := do
  let s := text.toList
  let (j, rest) ← value (s.length + 1) s
  if (Text.skip isBlank rest).isEmpty then return j else none

end BlockConvert.Json
