import BlockConvert.Proofs.Json.Reading
import BlockConvert.Proofs.Json.Written
import BlockConvert.Proofs.StyledText.Codes

set_option autoImplicit false

/-!
# Components of a JSON value

What the components of a value are, in reading order, and which style each has, is said by the
members of the value alone. A JSON text that denotes a value is read as just these components, so
the section text that is written for it shows their characters, each with the style of its own
component. Values that are nested too deeply are not read.
-/

namespace BlockConvert.StyledText

open Component (last? ofJson ofItems ofExtra ofMembers)

/-! ## Components in reading order -/

/-- The run is what the members of an object say of their own: the text under `text`, the colour
whose name is under `color`, and the flags with the value true. Of members with one name the last
counts. -/
structure IsOwn (ms : List (Option String × Json)) (r : Run) : Prop where
  text : ∀ s, last? "text" ms = some (.text (some s)) → r.text = s.toList
  noText : (∀ s, last? "text" ms ≠ some (.text (some s))) → r.text = []
  colour : ∀ k, r.style.colour = some k ↔ last? "color" ms = some (.text (some k.name))
  flag : ∀ f, r.style.has f = true ↔ last? f.name ms = some (.bool true)

/-- The components of a value in reading order. A text is a plain component, an array is read item
by item, an object is a component of its own before those of its `extra`, and any other value is a
component without text. -/
inductive InOrder : Json → List Run → Prop
  | text (s : String) : InOrder (.text (some s)) [⟨s.toList, .plain⟩]
  | nil : InOrder (.array []) []
  | cons {j : Json} {items : List Json} {rs rs' : List Run} (hj : InOrder j rs)
      (hitems : InOrder (.array items) rs') : InOrder (.array (j :: items)) (rs ++ rs')
  | object {ms : List (Option String × Json)} {r : Run} (hown : IsOwn ms r)
      (hextra : last? "extra" ms = none) : InOrder (.object ms) [r]
  | extra {ms : List (Option String × Json)} {r : Run} {e : Json} {rs : List Run}
      (hown : IsOwn ms r) (hextra : last? "extra" ms = some e) (he : InOrder e rs) :
      InOrder (.object ms) (r :: rs)
  | null : InOrder .null [⟨[], .plain⟩]
  | bool (b : Bool) : InOrder (.bool b) [⟨[], .plain⟩]
  | number (n : Option JsonNumber) : InOrder (.number n) [⟨[], .plain⟩]

variable {j : Json} {ms : List (Option String × Json)} {r : Run} {rs rs' : List Run}

theorem IsOwn.unique {r' : Run} (h : IsOwn ms r) (h' : IsOwn ms r') : r = r' := by
  have htext : r.text = r'.text := by
    by_cases hs : ∃ s, last? "text" ms = some (.text (some s))
    · obtain ⟨s, hs⟩ := hs
      rw [h.text s hs, h'.text s hs]
    · rw [not_exists] at hs
      rw [h.noText hs, h'.noText hs]
  have hstyle : r.style = r'.style := by
    refine Style.ext_has (Option.ext fun k => ?_) fun f => ?_
    · rw [h.colour, h'.colour]
    · rw [Bool.eq_iff_iff, h.flag, h'.flag]
  obtain ⟨_, _⟩ := r
  obtain ⟨_, _⟩ := r'
  cases htext
  cases hstyle
  rfl

theorem InOrder.unique (h : InOrder j rs) (h' : InOrder j rs') : rs = rs' := by
  induction h generalizing rs' with
  | text | nil | null | bool | number =>
    cases h'
    rfl
  | cons _ _ ih ih' =>
    cases h' with
    | cons hj hitems => rw [ih hj, ih' hitems]
  | object hown hextra =>
    cases h' with
    | object hown' _ => rw [hown.unique hown']
    | extra _ hextra' _ =>
      rw [hextra] at hextra'
      contradiction
  | extra hown hextra _ ih =>
    cases h' with
    | object _ hextra' =>
      rw [hextra] at hextra'
      contradiction
    | extra hown' hextra' he =>
      rw [hextra] at hextra'
      cases hextra'
      rw [hown.unique hown', ih he]

/-! ## What is read -/

theorem last?_cons (key : String) (m : Option String × Json) (ms : List (Option String × Json)) :
    last? key (m :: ms) = (last? key ms).or (if m.1 = some key then some m.2 else none) := by
  rw [last?, List.reverse_cons, List.find?_append, Option.map_or]
  congr 1
  simp only [List.find?_cons, List.find?_nil]
  split <;> simp_all

theorem ofName?_eq_some {s : String} {k : Colour} : Colour.ofName? s = some k ↔ s = k.name := by
  constructor
  · intro h
    have hname : (k.name == s) = true :=
      List.find?_some (p := fun k : Colour => k.name == s) h
    exact (beq_iff_eq.1 hname).symm
  · rintro rfl
    exact k.ofName?_name

theorem isOwn_ofMembers (ms : List (Option String × Json)) : IsOwn ms (ofMembers ms).run where
  text s h := by simp only [Component.run, ofMembers, h]
  noText h := by simp only [Component.run, ofMembers]
  colour k := by
    simp only [Component.run, ofMembers]
    split
    · rename_i s heq
      simp [heq, ofName?_eq_some]
    · rename_i hother
      exact ⟨nofun, fun h => absurd h (hother k.name)⟩
  flag f := by
    have hflag : (ofMembers ms).run.style.has f = Component.flag ms f := by cases f <;> rfl
    rw [hflag, Component.flag]
    split
    · rename_i b heq
      simp [heq]
    · rename_i hother
      exact ⟨nofun, fun h => absurd h (hother true)⟩

theorem ofExtra_eq (ms : List (Option String × Json)) :
    ofExtra ms = (last? "extra" ms).map ofJson := by
  induction ms with
  | nil => rfl
  | cons m ms ih =>
    obtain ⟨name, e⟩ := m
    rw [ofExtra, ih, last?_cons]
    cases hlast : last? "extra" ms with
    | some e' => rfl
    | none =>
      simp only [Option.map_none, Option.none_or]
      split <;> rfl

mutual

/-- The components that are read are those of the value, in reading order. -/
theorem inOrder_ofJson : ∀ j : Json, j.isSound = true → InOrder j ((ofJson j).map Component.run)
  | .null, _ => .null
  | .bool b, _ => .bool b
  | .number n, _ => .number n
  | .text (some s), _ => .text s
  | .array items, h => inOrder_ofItems items h
  | .object ms, h => by
    have hextra := inOrder_ofExtra ms h
    rw [ofJson, ofExtra_eq]
    cases hlast : last? "extra" ms with
    | none => exact .object (isOwn_ofMembers ms) hlast
    | some e => exact .extra (isOwn_ofMembers ms) hlast (hextra e hlast)

theorem inOrder_ofItems : ∀ items : List Json, Json.soundItems items = true →
    InOrder (.array items) ((ofItems items).map Component.run)
  | [], _ => .nil
  | j :: rest, h => by
    obtain ⟨hj, hrest⟩ := Bool.and_eq_true_iff.1 h
    rw [ofItems, List.map_append]
    exact .cons (inOrder_ofJson j hj) (inOrder_ofItems rest hrest)

theorem inOrder_ofExtra : ∀ ms : List (Option String × Json), Json.soundMembers ms = true →
    ∀ e, last? "extra" ms = some e → InOrder e ((ofJson e).map Component.run)
  | [], _, _, h => by cases h
  | (name, j) :: rest, hsound, e, h => by
    obtain ⟨hfirst, hrest⟩ := Bool.and_eq_true_iff.1 hsound
    rw [last?_cons, Option.or_eq_some_iff] at h
    rcases h with h | ⟨-, h⟩
    · exact inOrder_ofExtra rest hrest e h
    · obtain rfl : j = e := by
        split at h
        · exact Option.some.inj h
        · contradiction
      exact inOrder_ofJson j (Bool.and_eq_true_iff.1 hfirst).2

end

theorem inOrder_iff (h : j.isSound = true) : InOrder j rs ↔ rs = (ofJson j).map Component.run :=
  ⟨fun hrs => hrs.unique (inOrder_ofJson j h), fun hrs => hrs ▸ inOrder_ofJson j h⟩

/-! ## Section text for components -/

variable {text : List Char}

theorem ofComponents_of_denotes (h : Json.Denotes text j) (hdepth : j.depth ≤ Json.depthLimit) :
    ofComponents text = Component.sectionFrom .plain (ofJson j) := by
  have hwhole : j.isWhole 0 = true := by
    rw [Json.isWhole, h.isSound, Bool.and_true, decide_eq_true_eq]
    omega
  rw [ofComponents, Json.parse?_of_denotes h]
  exact if_pos hwhole

/-- For a text that denotes a value, nested within the limit, with no section sign in what is used
as text, the section text shows the characters of the components of the value in reading order, each
with the style of its own component. -/
theorem styled_ofComponents (h : Json.Denotes text j) (hdepth : j.depth ≤ Json.depthLimit) :
    ∃ rs, (∀ rs', InOrder j rs' ↔ rs' = rs) ∧
      ((∀ r ∈ rs, Style.sign ∉ r.text) →
        styled (ofComponents text) = rs.flatMap Run.characters) := by
  refine ⟨(ofJson j).map Component.run, fun rs' => inOrder_iff h.isSound, fun hsign => ?_⟩
  rw [ofComponents_of_denotes h hdepth]
  exact styledFrom_sectionFrom (fun c hc => hsign c.run (List.mem_map_of_mem hc)) .plain

def sampleMembers : List Json.MemberText :=
  [.quoted "text".toList (Json.quoted ['a']) (.text (some "a")),
   .quoted "color".toList (Json.quoted "red".toList) (.text (some "red")),
   .quoted "extra".toList (Json.quoted ['b']) (.text (some "b"))]

theorem denotes_sampleMembers : ∀ m ∈ sampleMembers, Json.Denotes m.valueText m.value := by
  simp only [sampleMembers, List.forall_mem_cons]
  exact ⟨Json.denotes_quoted ['a'], Json.denotes_quoted "red".toList, Json.denotes_quoted ['b'],
    by simp⟩

theorem styled_ofComponents_sample :
    ∃ text j, Json.Denotes text j ∧ j.depth ≤ Json.depthLimit ∧
      styled (ofComponents text) =
        [('a', { Style.plain with colour := some .red }), ('b', Style.plain)] := by
  have hnames : ∀ m ∈ sampleMembers, m.nameText = Json.quoted m.name := by decide
  have hdenotes := Json.denotes_object hnames denotes_sampleMembers
  refine ⟨_, _, hdenotes, by decide, ?_⟩
  obtain ⟨rs, hrs, hstyled⟩ := styled_ofComponents hdenotes (by decide)
  have hown : IsOwn (sampleMembers.map Json.MemberText.member)
      ⟨['a'], { Style.plain with colour := some .red }⟩ := isOwn_ofMembers _
  obtain rfl := (hrs _).1 (.extra hown rfl (.text "b"))
  exact hstyled (by decide)

/-! ## Values that are nested too deeply -/

theorem ofComponents_beyond_limit (h : Json.Denotes text j) (hdepth : Json.depthLimit < j.depth) :
    ofComponents text = [] := by
  have hwhole : j.isWhole 0 = false := by
    rw [Json.isWhole, Bool.and_eq_false_iff, decide_eq_false_iff_not]
    exact .inl (by omega)
  rw [ofComponents, Json.parse?_of_denotes h]
  simp only [hwhole, Bool.false_eq_true, if_false]

def nestedText : Nat → List Char
  | 0 => Json.quoted ['x']
  | n + 1 => '[' :: (nestedText n ++ [']'])

def nestedValue : Nat → Json
  | 0 => .text (some "x")
  | n + 1 => .array [nestedValue n]

theorem denotes_nested (n : Nat) : Json.Denotes (nestedText n) (nestedValue n) := by
  induction n with
  | zero => exact Json.denotes_quoted ['x']
  | succ n ih =>
    exact Json.denotes_array [(nestedText n, nestedValue n)] (by simpa using ih)

theorem depth_nested (n : Nat) : (nestedValue n).depth = n := by
  induction n with
  | zero => rfl
  | succ n ih => simp [nestedValue, Json.depth, Json.depthItems, ih]

theorem inOrder_nested (n : Nat) : InOrder (nestedValue n) [⟨['x'], .plain⟩] := by
  induction n with
  | zero => exact .text "x"
  | succ n ih => exact .cons ih .nil

/-- One array more than the limit, and the text in it is not shown. -/
theorem styled_ofComponents_nested :
    Json.Denotes (nestedText 128) (nestedValue 128) ∧
      InOrder (nestedValue 128) [⟨['x'], .plain⟩] ∧ Style.sign ∉ ['x'] ∧
      styled (ofComponents (nestedText 128)) ≠
        [(⟨['x'], .plain⟩ : Run)].flatMap Run.characters := by
  have hdepth : Json.depthLimit < (nestedValue 128).depth := by
    rw [depth_nested]
    decide
  refine ⟨denotes_nested 128, inOrder_nested 128, by decide, ?_⟩
  rw [ofComponents_beyond_limit (denotes_nested 128) hdepth]
  exact nofun

end BlockConvert.StyledText
