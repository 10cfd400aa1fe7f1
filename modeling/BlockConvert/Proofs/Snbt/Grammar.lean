import BlockConvert.Proofs.Decimal.Digits
import BlockConvert.Proofs.Text.Enclosed
import BlockConvert.Snbt.Printer
import Mathlib.Data.List.Forall2

set_option autoImplicit false

/-!
# Which tag a text denotes

The grammar of texts, said without a reader. A value stands between optional blanks and is a
compound, a list, an array, a text in quotes or a bare word; a bare word is a truth value, a number
of one of the kinds, or else a text. How the text of a floating point number becomes a value is
taken over from `Decimal.floating?`.
-/

namespace BlockConvert.Snbt

open Decimal (AllDigits)

/-! ## Bare words -/

inductive SpellsInteger : List Char → Int → Prop
  | unsigned {ds : List Char} (hne : ds ≠ []) (hds : AllDigits ds) :
      SpellsInteger ds (Nat.ofDigitChars 10 ds 0)
  | plus {ds : List Char} (hne : ds ≠ []) (hds : AllDigits ds) :
      SpellsInteger ('+' :: ds) (Nat.ofDigitChars 10 ds 0)
  | minus {ds : List Char} (hne : ds ≠ []) (hds : AllDigits ds) :
      SpellsInteger ('-' :: ds) (-(Nat.ofDigitChars 10 ds 0 : Int))

/-- The words that are numbers: an integer in the range of the kind that its suffix tells, or of
`int` without one; a floating point number with the suffix of its kind, or with a point. -/
inductive DenotesNumber : List Char → Tag → Prop
  | byte {body : List Char} {suffix : Char} {n : Int} (hbody : SpellsInteger body n)
      (hrange : Decimal.isSigned 8 n = true) (hsuffix : suffix = 'b' ∨ suffix = 'B') :
      DenotesNumber (body ++ [suffix]) (.byte (Int8.ofInt n))
  | short {body : List Char} {suffix : Char} {n : Int} (hbody : SpellsInteger body n)
      (hrange : Decimal.isSigned 16 n = true) (hsuffix : suffix = 's' ∨ suffix = 'S') :
      DenotesNumber (body ++ [suffix]) (.short (Int16.ofInt n))
  | long {body : List Char} {suffix : Char} {n : Int} (hbody : SpellsInteger body n)
      (hrange : Decimal.isSigned 64 n = true) (hsuffix : suffix = 'l' ∨ suffix = 'L') :
      DenotesNumber (body ++ [suffix]) (.long (Int64.ofInt n))
  | float {body : List Char} {suffix : Char} {bits : Nat} (hlooks : looksNumeric body = true)
      (hbody : Decimal.floating? .single body = some bits) (hsuffix : suffix = 'f' ∨ suffix = 'F') :
      DenotesNumber (body ++ [suffix]) (.float (UInt32.ofNat bits))
  | double {body : List Char} {suffix : Char} {bits : Nat} (hlooks : looksNumeric body = true)
      (hbody : Decimal.floating? .double body = some bits) (hsuffix : suffix = 'd' ∨ suffix = 'D') :
      DenotesNumber (body ++ [suffix]) (.double (UInt64.ofNat bits))
  | int {word : List Char} {n : Int} (hword : SpellsInteger word n)
      (hrange : Decimal.isSigned 32 n = true) : DenotesNumber word (.int (Int32.ofInt n))
  | pointed {word : List Char} {bits : Nat} (hlooks : looksNumeric word = true)
      (hpoint : '.' ∈ word) (hword : Decimal.floating? .double word = some bits) :
      DenotesNumber word (.double (UInt64.ofNat bits))

inductive DenotesWord : List Char → Tag → Prop
  | yes : DenotesWord "true".toList (.byte 1)
  | no : DenotesWord "false".toList (.byte 0)
  | number {word : List Char} {t : Tag} (h : DenotesNumber word t) : DenotesWord word t
  | text {word : List Char} (hyes : word ≠ "true".toList) (hno : word ≠ "false".toList)
      (hnumber : ∀ t, ¬DenotesNumber word t) : DenotesWord word (.string (String.ofList word))

def IsBareWord (word : List Char) : Prop := word ≠ [] ∧ ∀ c ∈ word, isBare c = true

/-! ## Texts in quotes and keys -/

def IsQuote (c : Char) : Prop := c = '"' ∨ c = '\''

/-- What stands between quotes, and the text it spells: a backslash and an `n` are a line break, a
backslash and another character are that character. -/
inductive SpellsText (quote : Char) : List Char → List Char → Prop
  | nil : SpellsText quote [] []
  | plain {c : Char} {inner text : List Char} (hquote : c ≠ quote) (hslash : c ≠ '\\')
      (h : SpellsText quote inner text) : SpellsText quote (c :: inner) (c :: text)
  | line {inner text : List Char} (h : SpellsText quote inner text) :
      SpellsText quote ('\\' :: 'n' :: inner) ('\n' :: text)
  | escaped {c : Char} {inner text : List Char} (hn : c ≠ 'n')
      (h : SpellsText quote inner text) : SpellsText quote ('\\' :: c :: inner) (c :: text)

inductive DenotesQuoted : List Char → String → Prop
  | mk {quote : Char} {inner text : List Char} (hquote : IsQuote quote)
      (h : SpellsText quote inner text) :
      DenotesQuoted (quote :: (inner ++ [quote])) (String.ofList text)

abbrev AllBlank : List Char → Prop := Text.AllBlank Text.isBlank

inductive DenotesKey : List Char → String → Prop
  | bare {word : List Char} (h : IsBareWord word) : DenotesKey word (String.ofList word)
  | quoted {text : List Char} {key : String} (h : DenotesQuoted text key) : DenotesKey text key
  | padded {before core after : List Char} {key : String} (hbefore : AllBlank before)
      (hafter : AllBlank after) (h : DenotesKey core key) :
      DenotesKey (before ++ core ++ after) key

/-! ## Values -/

abbrev Encloses : List (List Char) → List Char → Prop := Text.Encloses Text.isBlank

structure EntryText where
  keyText : List Char
  key : String
  valueText : List Char
  value : Tag

namespace EntryText

def text (e : EntryText) : List Char := e.keyText ++ ':' :: e.valueText

def entry (e : EntryText) : String × Tag := (e.key, e.value)

end EntryText

/-- An array of longs takes shorter integers too. -/
inductive IsLongElement : Tag → Int64 → Prop
  | long (v : Int64) : IsLongElement (.long v) v
  | int (v : Int32) : IsLongElement (.int v) v.toInt64

inductive MakesArray : Char → List Tag → Tag → Prop
  | bytes (vs : List Int8) : MakesArray 'B' (vs.map .byte) (.byteArray vs)
  | ints (vs : List Int32) : MakesArray 'I' (vs.map .int) (.intArray vs)
  | longs {ts : List Tag} {vs : List Int64} (h : List.Forall₂ IsLongElement ts vs) :
      MakesArray 'L' ts (.longArray vs)

/-- The text denotes the tag. Of the entries of a compound with one key the last counts, and the
elements of a list share the kind that the list declares. -/
inductive Denotes : List Char → Tag → Prop
  | word {text : List Char} {t : Tag} (hbare : IsBareWord text) (h : DenotesWord text t) :
      Denotes text t
  | quoted {text : List Char} {s : String} (h : DenotesQuoted text s) : Denotes text (.string s)
  | compound {es : List EntryText} {inner : List Char} {table : List (String × Tag)}
      (hinner : Encloses (es.map EntryText.text) inner)
      (hkeys : ∀ e ∈ es, DenotesKey e.keyText e.key)
      (hvalues : ∀ e ∈ es, Denotes e.valueText e.value) (hsorted : Table.Sorted table)
      (hlast : ∀ key, Table.get? table key = Table.get? (es.map EntryText.entry).reverse key) :
      Denotes ('\x7b' :: (inner ++ ['\x7d'])) (.compound table)
  | list {parts : List (List Char × Tag)} {inner : List Char} {element : Option Kind}
      (hinner : Encloses (parts.map Prod.fst) inner) (hparts : ∀ p ∈ parts, Denotes p.1 p.2)
      (hkinds : ∀ p ∈ parts, element = some p.2.kind) (hempty : parts = [] → element = none) :
      Denotes ('[' :: (inner ++ [']'])) (.list element (parts.map Prod.snd))
  | array {parts : List (List Char × Tag)} {inner : List Char} {mark : Char} {t : Tag}
      (hinner : Encloses (parts.map Prod.fst) inner) (hparts : ∀ p ∈ parts, Denotes p.1 p.2)
      (harray : MakesArray mark (parts.map Prod.snd) t) :
      Denotes ('[' :: mark :: ';' :: (inner ++ [']'])) t
  | padded {before core after : List Char} {t : Tag} (hbefore : AllBlank before)
      (hafter : AllBlank after) (h : Denotes core t) : Denotes (before ++ core ++ after) t

end BlockConvert.Snbt
