import BlockConvert.StyledText.Component

set_option autoImplicit false

/-!
# Codes lead from style to style

The codes that are written before a component are read as the change from the current style to the
style of the component, so what is written for a list of components is read as their characters,
each with the style of its own component.
-/

namespace BlockConvert.StyledText

namespace Style

variable {s t : Style} {f g : Flag}

/-! ## Styles -/

theorem ext_has (hcolour : s.colour = t.colour) (hhas : ∀ f, s.has f = t.has f) : s = t := by
  obtain ⟨_, _, _, _, _, _⟩ := s
  obtain ⟨_, _, _, _, _, _⟩ := t
  have hobfuscated := hhas .obfuscated
  have hbold := hhas .bold
  have hitalic := hhas .italic
  have hstrikethrough := hhas .strikethrough
  have hunderlined := hhas .underlined
  simp only [has] at hobfuscated hbold hitalic hstrikethrough hunderlined
  simp_all

theorem has_plain (f : Flag) : plain.has f = false := by cases f <;> rfl

theorem has_switchOn (s : Style) (f g : Flag) : (s.switchOn f).has g = (s.has g || f == g) := by
  cases f <;> cases g <;> simp [has, switchOn]

theorem colour_switchOn (s : Style) (f : Flag) : (s.switchOn f).colour = s.colour := by
  cases f <;> rfl

theorem has_foldl_switchOn (s : Style) (fs : List Flag) (f : Flag) :
    (fs.foldl switchOn s).has f = (s.has f || fs.contains f) := by
  induction fs generalizing s with
  | nil => simp
  | cons g rest ih =>
    rw [List.foldl_cons, ih, has_switchOn, List.contains_cons, Bool.or_assoc, BEq.comm]

theorem colour_foldl_switchOn (s : Style) (fs : List Flag) :
    (fs.foldl switchOn s).colour = s.colour := by
  induction fs generalizing s with
  | nil => rfl
  | cons g rest ih => rw [List.foldl_cons, ih, colour_switchOn]

theorem afterCode?_flag (s : Style) (f : Flag) : s.afterCode? f.code = some (s.switchOn f) := by
  cases f <;> rfl

theorem afterCode?_colour (s : Style) (k : Colour) :
    s.afterCode? k.code = some { s with colour := some k } := by
  cases k <;> rfl

end Style

theorem mem_allFlags (f : Flag) : f ∈ Flag.all := by cases f <;> decide

/-! ## Runs of codes -/

/-- The style after all the codes, if they all are known. -/
def afterCodes? (s : Style) (codes : List Char) : Option Style := codes.foldlM Style.afterCode? s

theorem afterCodes?_append (s : Style) (codes more : List Char) :
    afterCodes? s (codes ++ more) = (afterCodes? s codes).bind (afterCodes? · more) :=
  List.foldlM_append

theorem afterCodes?_flags (s : Style) (fs : List Flag) :
    afterCodes? s (fs.map Flag.code) = some (fs.foldl Style.switchOn s) := by
  induction fs generalizing s with
  | nil => rfl
  | cons f rest ih =>
    rw [List.map_cons, afterCodes?, List.foldlM_cons, Style.afterCode?_flag]
    exact ih (s.switchOn f)

/-! ## The codes before a component -/

def signed (codes : List Char) : List Char := codes.flatMap fun code => [Style.sign, code]

namespace Component

variable {current : Style} {c : Component} {cs : List Component} {f : Flag}

/-- Without a reset, the current style has no flag that the component lacks, and no colour if the
component has none. -/
theorem needsReset_eq_false (h : needsReset current c = false) :
    (∀ f, current.has f = true → c.style.has f = true) ∧
      (c.style.colour = none → current.colour = none) := by
  simp only [needsReset, Bool.or_eq_false_iff, Bool.and_eq_false_iff, List.any_eq_false,
    Bool.not_eq_eq_eq_not, Bool.not_false] at h
  obtain ⟨⟨hcurrent, hwanted⟩, hflags⟩ := h
  refine ⟨fun f hf => ?_, fun hnone => ?_⟩
  · simpa [hf] using hflags f (mem_allFlags f)
  · simp only [hnone, Option.isNone_none, Bool.true_eq_false, or_false] at hwanted
    simpa [hwanted] using hcurrent

theorem has_of_base (h : (base current c).has f = true) : c.style.has f = true := by
  unfold base at h
  split at h
  · rw [Style.has_plain] at h
    contradiction
  · rename_i hreset
    exact (needsReset_eq_false (by simpa using hreset)).1 f h

theorem colour_base (h : c.style.colour = none) : (base current c).colour = none := by
  unfold base
  split
  · rfl
  · rename_i hreset
    exact (needsReset_eq_false (by simpa using hreset)).2 h

theorem afterCodes?_reset (current : Style) (c : Component) :
    afterCodes? current (if needsReset current c then [Style.resetCode] else []) =
      some (base current c) := by
  unfold base
  split <;> rfl

theorem afterCodes?_colourCodes (start : Style) (c : Component) :
    afterCodes? start (colourCodes start c) = some (coloured start c) := by
  unfold colourCodes coloured
  cases c.style.colour with
  | none => rfl
  | some k =>
    simp only
    split
    · rename_i hstart
      rw [← hstart]
      rfl
    · rw [afterCodes?, List.foldlM_cons, Style.afterCode?_colour]
      rfl

theorem has_coloured (start : Style) (c : Component) (f : Flag) :
    (coloured start c).has f = start.has f := by
  unfold coloured
  cases c.style.colour <;> cases f <;> rfl

/-- The style that is kept track of is the one that the component asks for. -/
theorem tracked_eq (current : Style) (c : Component) : tracked current c = c.style := by
  unfold tracked
  refine Style.ext_has ?_ fun f => ?_
  · rw [Style.colour_foldl_switchOn, coloured]
    cases hcolour : c.style.colour with
    | some k => rfl
    | none => exact colour_base hcolour
  · have hkeep : (base current c).has f = true → c.style.has f = true := has_of_base
    rw [Style.has_foldl_switchOn, has_coloured, List.contains_eq_mem, Bool.eq_iff_iff]
    simp only [newFlags, Bool.or_eq_true, decide_eq_true_eq, List.mem_filter, mem_allFlags,
      true_and, Bool.and_eq_true, Bool.not_eq_eq_eq_not, Bool.not_true]
    constructor
    · rintro (hf | ⟨hf, -⟩)
      · exact hkeep hf
      · exact hf
    · intro hf
      cases hold : (base current c).has f with
      | true => exact .inl rfl
      | false => exact .inr ⟨hf, rfl⟩

/-- The codes before a component lead to its style. -/
theorem afterCodes?_codes (current : Style) (c : Component) :
    afterCodes? current (codes current c) = some c.style := by
  have htracked : some (tracked current c) = some c.style := congrArg some (tracked_eq current c)
  rw [codes, afterCodes?_append, afterCodes?_append, afterCodes?_reset, Option.bind_some,
    afterCodes?_colourCodes, Option.bind_some, afterCodes?_flags]
  exact htracked

end Component

/-! ## Reading codes and text -/

theorem styledFrom_sign (s : Style) (code : Char) (more : List Char) :
    styledFrom s (Style.sign :: code :: more) =
      match s.afterCode? code with
      | some next => styledFrom next more
      | none => styledFrom s (code :: more) := by
  rw [styledFrom.eq_def]
  exact if_pos rfl

theorem styledFrom_cons {c : Char} (h : c ≠ Style.sign) (s : Style) (rest : List Char) :
    styledFrom s (c :: rest) = (c, s) :: styledFrom s rest := by
  rw [styledFrom.eq_def]
  exact if_neg h

theorem styledFrom_signed {s t : Style} {codes : List Char} (h : afterCodes? s codes = some t)
    (rest : List Char) : styledFrom s (signed codes ++ rest) = styledFrom t rest := by
  induction codes generalizing s with
  | nil =>
    cases h
    rfl
  | cons code more ih =>
    rw [afterCodes?, List.foldlM_cons] at h
    obtain ⟨next, hnext, hmore⟩ := Option.bind_eq_some_iff.1 h
    have hcons : signed (code :: more) = Style.sign :: code :: signed more := rfl
    rw [hcons, List.cons_append, List.cons_append, styledFrom_sign, hnext]
    exact ih hmore

theorem styledFrom_text {text : List Char} (h : Style.sign ∉ text) (s : Style) (rest : List Char) :
    styledFrom s (text ++ rest) = text.map (·, s) ++ styledFrom s rest := by
  induction text with
  | nil => rfl
  | cons c text ih =>
    rw [List.mem_cons, not_or] at h
    rw [List.cons_append, styledFrom_cons (Ne.symm h.1), ih h.2]
    rfl

def Component.run (c : Component) : Run := ⟨c.text, c.style⟩

/-- What is written for components is read as their characters, each with its own style. -/
theorem styledFrom_sectionFrom {cs : List Component} (h : ∀ c ∈ cs, Style.sign ∉ c.text)
    (s : Style) :
    styledFrom s (Component.sectionFrom s cs) = (cs.map Component.run).flatMap Run.characters := by
  induction cs generalizing s with
  | nil => rfl
  | cons c rest ih =>
    have hsection : Component.sectionFrom s (c :: rest) =
        signed (Component.codes s c) ++
          (c.text ++ Component.sectionFrom (Component.tracked s c) rest) :=
      List.append_assoc _ _ _
    rw [hsection, styledFrom_signed (Component.afterCodes?_codes s c), Component.tracked_eq,
      styledFrom_text (h c (by simp)), ih fun d hd => h d (List.mem_cons_of_mem _ hd)]
    rfl

end BlockConvert.StyledText
