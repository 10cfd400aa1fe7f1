set_option autoImplicit false

/-!
# Text styles

A style is one of sixteen colours, or none, and five flags. Colours and flags have one-letter codes
after a section sign, and names in JSON components.
-/

namespace BlockConvert.StyledText

inductive Colour where
  | black
  | darkBlue
  | darkGreen
  | darkAqua
  | darkRed
  | darkPurple
  | gold
  | gray
  | darkGray
  | blue
  | green
  | aqua
  | red
  | lightPurple
  | yellow
  | white
deriving DecidableEq

namespace Colour

def all : List Colour :=
  [black, darkBlue, darkGreen, darkAqua, darkRed, darkPurple, gold, gray, darkGray, blue, green,
   aqua, red, lightPurple, yellow, white]

def code : Colour → Char
  | black => '0'
  | darkBlue => '1'
  | darkGreen => '2'
  | darkAqua => '3'
  | darkRed => '4'
  | darkPurple => '5'
  | gold => '6'
  | gray => '7'
  | darkGray => '8'
  | blue => '9'
  | green => 'a'
  | aqua => 'b'
  | red => 'c'
  | lightPurple => 'd'
  | yellow => 'e'
  | white => 'f'

def name : Colour → String
  | black => "black"
  | darkBlue => "dark_blue"
  | darkGreen => "dark_green"
  | darkAqua => "dark_aqua"
  | darkRed => "dark_red"
  | darkPurple => "dark_purple"
  | gold => "gold"
  | gray => "gray"
  | darkGray => "dark_gray"
  | blue => "blue"
  | green => "green"
  | aqua => "aqua"
  | red => "red"
  | lightPurple => "light_purple"
  | yellow => "yellow"
  | white => "white"

def ofCode? (c : Char) : Option Colour := all.find? fun k => k.code == c

def ofName? (name : String) : Option Colour := all.find? fun k => k.name == name

theorem ofName?_name (k : Colour) : ofName? k.name = some k := by cases k <;> decide

end Colour

inductive Flag where
  | obfuscated
  | bold
  | italic
  | strikethrough
  | underlined
deriving DecidableEq

namespace Flag

def all : List Flag := [obfuscated, bold, italic, strikethrough, underlined]

def code : Flag → Char
  | obfuscated => 'k'
  | bold => 'l'
  | italic => 'o'
  | strikethrough => 'm'
  | underlined => 'n'

def name : Flag → String
  | obfuscated => "obfuscated"
  | bold => "bold"
  | italic => "italic"
  | strikethrough => "strikethrough"
  | underlined => "underlined"

def ofCode? (c : Char) : Option Flag := all.find? fun f => f.code == c

end Flag

structure Style where
  colour : Option Colour
  obfuscated : Bool
  bold : Bool
  italic : Bool
  strikethrough : Bool
  underlined : Bool
deriving DecidableEq

namespace Style

def plain : Style := ⟨none, false, false, false, false, false⟩

def has (s : Style) : Flag → Bool
  | .obfuscated => s.obfuscated
  | .bold => s.bold
  | .italic => s.italic
  | .strikethrough => s.strikethrough
  | .underlined => s.underlined

def switchOn (s : Style) : Flag → Style
  | .obfuscated => { s with obfuscated := true }
  | .bold => { s with bold := true }
  | .italic => { s with italic := true }
  | .strikethrough => { s with strikethrough := true }
  | .underlined => { s with underlined := true }

def sign : Char := '§'

def resetCode : Char := 'r'

def afterCode? (s : Style) (c : Char) : Option Style :=
  if c = resetCode then some plain
  else match Flag.ofCode? c with
    | some f => some (s.switchOn f)
    | none => (Colour.ofCode? c).map fun k => { s with colour := some k }

end Style

end BlockConvert.StyledText
