import BlockConvert.StyledText.Style

set_option autoImplicit false

/-!
# Text with section signs

A section sign and a known code change the style of what follows; before anything else, or at the
end, the sign is dropped. `runs` cuts a text into stretches between signs, each with its style, and
`styled` gives every character with its style.
-/

namespace BlockConvert.StyledText

structure Run where
  text : List Char
  style : Style
deriving DecidableEq

/-- The stretches of a text between section signs, empty ones left out; `pending` holds, in reverse,
the characters of the stretch that is being read. -/
def runsFrom (style : Style) (pending : List Char) : List Char → List Run
  | [] => if pending.isEmpty then [] else [⟨pending.reverse, style⟩]
  | c :: rest =>
    if c = Style.sign then
      (if pending.isEmpty then [] else [⟨pending.reverse, style⟩]) ++
        match rest with
        | [] => []
        | code :: more =>
          match style.afterCode? code with
          | some next => runsFrom next [] more
          | none => runsFrom style [] (code :: more)
    else runsFrom style (c :: pending) rest

def runs (s : List Char) : List Run := runsFrom Style.plain [] s

def styledFrom (style : Style) : List Char → List (Char × Style)
  | [] => []
  | c :: rest =>
    if c = Style.sign then
      match rest with
      | [] => []
      | code :: more =>
        match style.afterCode? code with
        | some next => styledFrom next more
        | none => styledFrom style (code :: more)
    else (c, style) :: styledFrom style rest

def styled (s : List Char) : List (Char × Style) := styledFrom Style.plain s

def Run.characters (r : Run) : List (Char × Style) := r.text.map (·, r.style)

end BlockConvert.StyledText
