import BlockConvert.Json.Parser
import BlockConvert.Proofs.Snbt.Grammar

set_option autoImplicit false

/-!
# Which value a JSON text denotes

The grammar of JSON, said without a reader. A value stands between optional blanks and is a literal,
a number, a text in quotes, an array or an object. A member of an object is a text in quotes, a
colon and a value; repeated names are kept. Of a number only the range of its value is taken over
from `numberOf`.
-/

namespace BlockConvert.Json

open Decimal (AllDigits)

abbrev AllBlank : List Char → Prop := Text.AllBlank isBlank

/-! ## Texts -/

inductive SpellsUnit : List Char → Nat → Prop
  | mk {a b c d : Char} {n m k l : Nat} (ha : hexValue? a = some n) (hb : hexValue? b = some m)
      (hc : hexValue? c = some k) (hd : hexValue? d = some l) :
      SpellsUnit [a, b, c, d] (n * 4096 + m * 256 + k * 16 + l)

/-- The spellings of one character: as itself, by a letter after a backslash, by the number of its
unit, or by the numbers of its two units. -/
inductive SpellsChar : List Char → Char → Prop
  | plain {c : Char} (hcontrol : 0x20 ≤ c.toNat) (hquote : c ≠ '"') (hslash : c ≠ '\\') :
      SpellsChar [c] c
  | letter {e c : Char} (h : simpleEscape? e = some c) : SpellsChar ['\\', e] c
  | unit {digits : List Char} {n : Nat} (h : SpellsUnit digits n)
      (halone : n < 0xD800 ∨ 0xE000 ≤ n) : SpellsChar ('\\' :: 'u' :: digits) (Char.ofNat n)
  | pair {digits digits' : List Char} {n m : Nat} (hhigh : SpellsUnit digits n)
      (hn : 0xD800 ≤ n ∧ n < 0xDC00) (hlow : SpellsUnit digits' m)
      (hm : 0xDC00 ≤ m ∧ m < 0xE000) :
      SpellsChar ('\\' :: 'u' :: (digits ++ '\\' :: 'u' :: digits'))
        (Char.ofNat (0x10000 + (n - 0xD800) * 1024 + (m - 0xDC00)))

inductive SpellsText : List Char → List Char → Prop
  | nil : SpellsText [] []
  | cons {spelled inner text : List Char} {c : Char} (hc : SpellsChar spelled c)
      (h : SpellsText inner text) : SpellsText (spelled ++ inner) (c :: text)

/-! ## Numbers -/

def IsWholePart (ds : List Char) : Prop :=
  ds = ['0'] ∨ AllDigits ds ∧ ds ≠ [] ∧ ds.head? ≠ some '0'

inductive SpellsFraction : List Char → Option (List Char) → Prop
  | absent : SpellsFraction [] none
  | digits {ds : List Char} (hne : ds ≠ []) (hds : AllDigits ds) :
      SpellsFraction ('.' :: ds) (some ds)

inductive SpellsExponent : List Char → Option Int → Prop
  | absent : SpellsExponent [] none
  | power {mark : Char} {body : List Char} {n : Int} (hmark : mark = 'e' ∨ mark = 'E')
      (h : Snbt.SpellsInteger body n) : SpellsExponent (mark :: body) (some n)

inductive SpellsNumber : List Char → JsonNumber → Prop
  | mk {negative : Bool} {whole fraction exponent : List Char} {behind : Option (List Char)}
      {power : Option Int} {n : JsonNumber} (hwhole : IsWholePart whole)
      (hfraction : SpellsFraction fraction behind) (hexponent : SpellsExponent exponent power)
      (hvalue : numberOf negative whole behind power = some n) :
      SpellsNumber ((if negative then ['-'] else []) ++ whole ++ fraction ++ exponent) n

/-! ## Values -/

abbrev Encloses : List (List Char) → List Char → Prop := Text.Encloses isBlank

structure MemberText where
  nameText : List Char
  name : List Char
  valueText : List Char
  value : Json

namespace MemberText

def text (m : MemberText) : List Char := m.nameText ++ ':' :: m.valueText

def member (m : MemberText) : Option String × Json := (some (String.ofList m.name), m.value)

end MemberText

inductive DenotesName : List Char → List Char → Prop
  | mk {before inner after name : List Char} (hbefore : AllBlank before) (hafter : AllBlank after)
      (h : SpellsText inner name) : DenotesName (before ++ '"' :: (inner ++ '"' :: after)) name

inductive Denotes : List Char → Json → Prop
  | null : Denotes "null".toList .null
  | yes : Denotes "true".toList (.bool true)
  | no : Denotes "false".toList (.bool false)
  | number {text : List Char} {n : JsonNumber} (h : SpellsNumber text n) :
      Denotes text (.number (some n))
  | text {inner text : List Char} (h : SpellsText inner text) :
      Denotes ('"' :: (inner ++ ['"'])) (.text (some (String.ofList text)))
  | array {parts : List (List Char × Json)} {inner : List Char}
      (hinner : Encloses (parts.map Prod.fst) inner) (hparts : ∀ p ∈ parts, Denotes p.1 p.2) :
      Denotes ('[' :: (inner ++ [']'])) (.array (parts.map Prod.snd))
  | object {ms : List MemberText} {inner : List Char}
      (hinner : Encloses (ms.map MemberText.text) inner)
      (hnames : ∀ m ∈ ms, DenotesName m.nameText m.name)
      (hvalues : ∀ m ∈ ms, Denotes m.valueText m.value) :
      Denotes ('\x7b' :: (inner ++ ['\x7d'])) (.object (ms.map MemberText.member))
  | padded {before core after : List Char} {j : Json} (hbefore : AllBlank before)
      (hafter : AllBlank after) (h : Denotes core j) : Denotes (before ++ core ++ after) j

end BlockConvert.Json
