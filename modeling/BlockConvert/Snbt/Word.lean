import BlockConvert.Tag
import BlockConvert.Decimal.Reader

set_option autoImplicit false

/-!
# Bare words

A bare word is a run of letters, digits and the four signs `_ - . +`. It is a truth value, a number
in its range with the suffix of its kind, an integer, a number with a point, or else a text.
-/

namespace BlockConvert.Snbt

open Decimal (Format)

def isBare (c : Char) : Bool :=
  c.isAlphanum || c == '_' || c == '-' || c == '.' || c == '+'

def looksNumeric : List Char → Bool
  | [] => false
  | c :: _ => c.isDigit || c == '-' || c == '+' || c == '.'

def suffixed? (body : List Char) (suffix : Char) : Option Tag :=
  match suffix.toLower with
  | 'b' => (Decimal.signedIn? 8 body).map fun n => .byte (Int8.ofInt n)
  | 's' => (Decimal.signedIn? 16 body).map fun n => .short (Int16.ofInt n)
  | 'l' => (Decimal.signedIn? 64 body).map fun n => .long (Int64.ofInt n)
  | 'f' =>
    if looksNumeric body then
      (Decimal.floating? .single body).map fun b => .float (UInt32.ofNat b)
    else none
  | 'd' =>
    if looksNumeric body then
      (Decimal.floating? .double body).map fun b => .double (UInt64.ofNat b)
    else none
  | _ => none

def int? (word : List Char) : Option Tag :=
  (Decimal.signedIn? 32 word).map fun n => .int (Int32.ofInt n)

def pointed? (word : List Char) : Option Tag :=
  if word.contains '.' then
    (Decimal.floating? .double word).map fun b => .double (UInt64.ofNat b)
  else none

def number? (word : List Char) : Option Tag :=
  (word.getLast?.bind fun suffix => suffixed? word.dropLast suffix) <|> int? word <|> pointed? word

def classify (word : List Char) : Tag :=
  if word = "true".toList then .byte 1
  else if word = "false".toList then .byte 0
  else if looksNumeric word then (number? word).getD (.string (String.ofList word))
  else .string (String.ofList word)

end BlockConvert.Snbt
