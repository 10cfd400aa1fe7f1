import BlockConvert.Snbt.Word
import BlockConvert.Decimal.Notation
import BlockConvert.Text.Split

set_option autoImplicit false

/-!
# Printing tags

The canonical text of a tag: keys in order and quoted only if they are not bare words, texts always
in double quotes, every number but an `int` with the suffix of its kind, no blanks.
-/

namespace BlockConvert

namespace Snbt

open Decimal (Format)

def escape (c : Char) : List Char :=
  if c = '"' then ['\\', '"']
  else if c = '\\' then ['\\', '\\']
  else if c = '\n' then ['\\', 'n']
  else [c]

def renderText (s : String) : List Char := '"' :: (s.toList.flatMap escape ++ ['"'])

def renderKey (key : String) : List Char :=
  if !key.toList.isEmpty && key.toList.all isBare then key.toList else renderText key

def renderArray (mark : Char) (suffix : List Char) (values : List Int) : List Char :=
  '[' :: mark :: ';' ::
    (Text.joinWith ',' (values.map fun v => Decimal.signed v ++ suffix) ++ [']'])

def renderFloating (f : Format) (bits : Nat) (suffix : Char) : List Char :=
  Decimal.Notation.tagged.text f (f.decode bits) ++ [suffix]

mutual

def render : Tag → List Char
  | .byte v => Decimal.signed v.toInt ++ ['b']
  | .short v => Decimal.signed v.toInt ++ ['s']
  | .int v => Decimal.signed v.toInt
  | .long v => Decimal.signed v.toInt ++ ['L']
  | .float b => renderFloating .single b.toNat 'f'
  | .double b => renderFloating .double b.toNat 'd'
  | .byteArray vs => renderArray 'B' ['b'] (vs.map Int8.toInt)
  | .string s => renderText s
  | .list _ items => '[' :: (Text.joinWith ',' (renderItems items) ++ [']'])
  | .compound entries => '\x7b' :: (Text.joinWith ',' (renderEntries entries) ++ ['\x7d'])
  | .intArray vs => renderArray 'I' [] (vs.map Int32.toInt)
  | .longArray vs => renderArray 'L' ['L'] (vs.map Int64.toInt)

def renderItems : List Tag → List (List Char)
  | [] => []
  | t :: rest => render t :: renderItems rest

def renderEntries : List (String × Tag) → List (List Char)
  | [] => []
  | (k, t) :: rest => (renderKey k ++ ':' :: render t) :: renderEntries rest

end

end Snbt

def Tag.snbt (t : Tag) : String := String.ofList (Snbt.render t)

end BlockConvert
