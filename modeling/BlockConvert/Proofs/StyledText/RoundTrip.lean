import BlockConvert.Proofs.StyledText.Components
import Mathlib.Data.List.Nodup

set_option autoImplicit false

/-!
# Section text through JSON components

Section text is cut into runs, the runs are written as JSON components, and these are read as the
same runs. The section text that is written for them depends only on the styled characters: codes
stand exactly where the style changes. So the way to JSON and back gives a normal form of the styled
characters, and of several lines it keeps each line.
-/

namespace BlockConvert.StyledText

open Component (last? ofJson ofItems ofMembers)

variable {s t : List Char} {style : Style} {pending : List Char} {r : Run} {rs : List Run}

/-! ## Runs -/

/-- The stretch that is being read, if there is one. -/
def pendingRun (style : Style) (pending : List Char) : List Run :=
  if pending.isEmpty then [] else [⟨pending.reverse, style⟩]

theorem runsFrom_cons {c : Char} (h : c ≠ Style.sign) (style : Style) (pending rest : List Char) :
    runsFrom style pending (c :: rest) = runsFrom style (c :: pending) rest := by
  rw [runsFrom.eq_def]
  exact if_neg h

theorem runsFrom_sign (style : Style) (pending : List Char) (code : Char) (more : List Char) :
    runsFrom style pending (Style.sign :: code :: more) = pendingRun style pending ++
      match style.afterCode? code with
      | some next => runsFrom next [] more
      | none => runsFrom style [] (code :: more) := by
  rw [runsFrom.eq_def]
  exact if_pos rfl

theorem runsFrom_last (style : Style) (pending : List Char) :
    runsFrom style pending [Style.sign] = pendingRun style pending := by
  rw [runsFrom.eq_def]
  exact List.append_nil _

theorem characters_pendingRun (style : Style) (pending : List Char) :
    (pendingRun style pending).flatMap Run.characters = pending.reverse.map (·, style) := by
  cases pending with
  | nil => rfl
  | cons c rest => simp [pendingRun, Run.characters]

/-- A run has a text, without a section sign. -/
def Run.Proper (r : Run) : Prop := r.text ≠ [] ∧ Style.sign ∉ r.text

theorem proper_pendingRun (h : Style.sign ∉ pending) :
    ∀ r ∈ pendingRun style pending, r.Proper := by
  cases pending with
  | nil => simp [pendingRun]
  | cons c rest =>
    simp only [pendingRun, List.isEmpty_cons, Bool.false_eq_true, if_false,
      List.forall_mem_singleton]
    exact ⟨by simp, by simpa [and_comm] using h⟩

/-- The runs of a text have its styled characters. The induction follows the reading of the text, in
which a sign before an unknown code takes one character and a sign before a known code takes two. -/
theorem characters_runsFrom (style : Style) (pending s : List Char) :
    (runsFrom style pending s).flatMap Run.characters =
      pending.reverse.map (·, style) ++ styledFrom style s := by
  induction style, s using styledFrom.induct generalizing pending with
  | case1 style => exact (characters_pendingRun style pending).trans (List.append_nil _).symm
  | case2 style =>
    rw [runsFrom_last, characters_pendingRun]
    exact (List.append_nil _).symm
  | case3 style code more next hcode ih =>
    rw [runsFrom_sign, styledFrom_sign, hcode, List.flatMap_append, characters_pendingRun, ih]
    rfl
  | case4 style code more hcode ih =>
    rw [runsFrom_sign, styledFrom_sign, hcode, List.flatMap_append, characters_pendingRun, ih]
    rfl
  | case5 style c more hc ih =>
    rw [runsFrom_cons hc, styledFrom_cons hc, ih, List.reverse_cons, List.map_append,
      List.append_assoc]
    rfl

theorem characters_runs (s : List Char) : (runs s).flatMap Run.characters = styled s :=
  characters_runsFrom .plain [] s

theorem proper_runsFrom (style : Style) (pending s : List Char) (h : Style.sign ∉ pending) :
    ∀ r ∈ runsFrom style pending s, r.Proper := by
  induction style, s using styledFrom.induct generalizing pending with
  | case1 style => exact proper_pendingRun h
  | case2 style =>
    rw [runsFrom_last]
    exact proper_pendingRun h
  | case3 style code more next hcode ih =>
    rw [runsFrom_sign, hcode]
    exact List.forall_mem_append.2 ⟨proper_pendingRun h, ih [] List.not_mem_nil⟩
  | case4 style code more hcode ih =>
    rw [runsFrom_sign, hcode]
    exact List.forall_mem_append.2 ⟨proper_pendingRun h, ih [] List.not_mem_nil⟩
  | case5 style c more hc ih =>
    rw [runsFrom_cons hc]
    exact ih (c :: pending) (by simp [Ne.symm hc, h])

theorem proper_runs (s : List Char) : ∀ r ∈ runs s, r.Proper :=
  proper_runsFrom .plain [] s List.not_mem_nil

/-! ## Runs as JSON -/

namespace Run

def members (r : Run) : List Json.MemberText :=
  .quoted "text".toList (Json.quoted r.text) (.text (some (String.ofList r.text))) ::
    ((Flag.all.filter r.style.has).map fun f =>
      .quoted f.name.toList "true".toList (.bool true)) ++
    r.style.colour.toList.map fun k =>
      .quoted "color".toList (Json.quoted k.name.toList) (.text (some k.name))

def json (r : Run) : Json :=
  if r.style = .plain then .text (some (String.ofList r.text))
  else .object (r.members.map Json.MemberText.member)

def component (r : Run) : Component := ⟨r.text, r.style.colour.isSome, r.style⟩

end Run

theorem joinWith_cons (sep : Char) (piece : List Char) (pieces : List (List Char)) :
    Text.joinWith sep (piece :: pieces) = piece ++ pieces.flatMap (sep :: ·) := by
  induction pieces generalizing piece with
  | nil => simp [Text.joinWith]
  | cons next more ih => rw [Text.joinWith, ih, List.flatMap_cons, List.cons_append]

theorem renderRun_of_styled (h : r.style ≠ .plain) :
    Component.renderRun r =
      '\x7b' :: (Text.joinWith ',' (r.members.map Json.MemberText.text) ++ ['\x7d']) := by
  rw [Component.renderRun, if_neg h, Run.members, List.cons_append, List.map_cons, joinWith_cons]
  simp only [List.map_append, List.map_map, List.flatMap_append, List.flatMap_map,
    List.append_assoc]
  cases r.style.colour <;> simp [Json.MemberText.text, Json.MemberText.quoted]

namespace Run

theorem forall_mem_members {P : Json.MemberText → Prop} :
    (∀ m ∈ r.members, P m) ↔
      P (.quoted "text".toList (Json.quoted r.text) (.text (some (String.ofList r.text)))) ∧
        (∀ f, r.style.has f = true → P (.quoted f.name.toList "true".toList (.bool true))) ∧
        ∀ k, r.style.colour = some k →
          P (.quoted "color".toList (Json.quoted k.name.toList) (.text (some k.name))) := by
  rw [members, List.cons_append, List.forall_mem_cons, List.forall_mem_append]
  simp [mem_allFlags]

theorem denotes_members (r : Run) :
    Json.Denotes ('\x7b' :: (Text.joinWith ',' (r.members.map Json.MemberText.text) ++ ['\x7d']))
      (.object (r.members.map Json.MemberText.member)) := by
  refine Json.denotes_object ?_ (forall_mem_members.2 ⟨?_, fun _ _ => .yes, fun k _ => ?_⟩)
  · exact forall_mem_members.2 ⟨rfl, fun _ _ => rfl, fun _ _ => rfl⟩
  · exact Json.denotes_quoted r.text
  · have hname := Json.denotes_quoted k.name.toList
    rwa [String.ofList_toList] at hname

end Run

theorem denotes_renderRun (r : Run) : Json.Denotes (Component.renderRun r) r.json := by
  by_cases h : r.style = .plain
  · rw [Component.renderRun, Run.json, if_pos h, if_pos h]
    exact Json.denotes_quoted r.text
  · rw [renderRun_of_styled h, Run.json, if_neg h]
    exact r.denotes_members

theorem denotes_renderRuns (rs : List Run) :
    Json.Denotes (Component.renderRuns rs) (.array (rs.map Run.json)) := by
  have harray := Json.denotes_array (rs.map fun r => (Component.renderRun r, r.json))
    (List.forall_mem_map.2 fun r _ => denotes_renderRun r)
  rw [List.map_map, List.map_map] at harray
  exact harray

/-! ## Runs are read back -/

theorem last?_eq_some {ms : List (Option String × Json)} (h : (ms.map Prod.fst).Nodup)
    {key : String} {j : Json} : last? key ms = some j ↔ (some key, j) ∈ ms := by
  have hmem : ∀ {j}, last? key ms = some j → (some key, j) ∈ ms := fun {j} hlast => by
    obtain ⟨⟨name, j'⟩, hfind, rfl⟩ := Option.map_eq_some_iff.1 hlast
    obtain rfl : name = some key := by simpa using List.find?_some hfind
    exact List.mem_reverse.1 (List.mem_of_find?_eq_some hfind)
  refine ⟨hmem, fun hj => ?_⟩
  cases hlast : last? key ms with
  | some j' =>
    have hsame := List.inj_on_of_nodup_map h (hmem hlast) hj rfl
    rw [(Prod.mk.inj hsame).2]
  | none =>
    rw [last?, Option.map_eq_none_iff, List.find?_eq_none] at hlast
    exact absurd BEq.rfl (hlast _ (List.mem_reverse.2 hj))

namespace Run

theorem members_member (r : Run) : r.members.map Json.MemberText.member =
    (some "text", .text (some (String.ofList r.text))) ::
      ((Flag.all.filter r.style.has).map fun f => (some f.name, .bool true)) ++
      r.style.colour.toList.map fun k => (some "color", .text (some k.name)) := by
  simp only [members, List.cons_append, List.map_cons, List.map_append, List.map_map,
    Function.comp_def, Json.MemberText.member, Json.MemberText.quoted, String.ofList_toList]

theorem mem_members {key : String} {j : Json} :
    (some key, j) ∈ r.members.map Json.MemberText.member ↔
      (key = "text" ∧ j = .text (some (String.ofList r.text))) ∨
        (∃ f, r.style.has f = true ∧ f.name = key ∧ .bool true = j) ∨
        ∃ k, r.style.colour = some k ∧ "color" = key ∧ .text (some k.name) = j := by
  rw [members_member, List.cons_append, List.mem_cons, List.mem_append]
  simp only [Prod.mk.injEq, Option.some.injEq, List.mem_map, List.mem_filter, mem_allFlags,
    true_and, Option.mem_toList]

theorem names_nodup (r : Run) : ((r.members.map Json.MemberText.member).map Prod.fst).Nodup := by
  have hall : (some "text" :: (Flag.all.map (some ·.name) ++ [some "color"])).Nodup := by
    decide
  refine List.Nodup.sublist ?_ hall
  rw [members_member, List.cons_append, List.map_cons, List.map_append, List.map_map, List.map_map]
  refine ((List.filter_sublist.map _).append ?_).cons_cons _
  cases r.style.colour with
  | none => exact List.nil_sublist _
  | some k => exact List.Sublist.refl _

theorem isOwn (r : Run) : IsOwn (r.members.map Json.MemberText.member) r where
  text s h := by
    rw [last?_eq_some r.names_nodup, mem_members] at h
    rcases h with ⟨-, heq⟩ | ⟨f, -, -, heq⟩ | ⟨k, -, hname, -⟩
    · cases heq
      rw [String.toList_ofList]
    · contradiction
    · exact absurd hname (by decide)
  noText h := by
    refine absurd ?_ (h (String.ofList r.text))
    rw [last?_eq_some r.names_nodup, mem_members]
    exact .inl ⟨rfl, rfl⟩
  colour k := by
    rw [last?_eq_some r.names_nodup, mem_members]
    constructor
    · exact fun hk => .inr (.inr ⟨k, hk, rfl, rfl⟩)
    · rintro (⟨hname, -⟩ | ⟨f, -, -, heq⟩ | ⟨k', hk, -, heq⟩)
      · exact absurd hname (by decide)
      · contradiction
      · have hname : k'.name = k.name := by simpa using heq
        have hsame : k' = k := Option.some.inj
          (k'.ofName?_name.symm.trans ((congrArg Colour.ofName? hname).trans k.ofName?_name))
        rw [hk, hsame]
  flag f := by
    rw [last?_eq_some r.names_nodup, mem_members]
    constructor
    · exact fun hf => .inr (.inl ⟨f, hf, rfl, rfl⟩)
    · rintro (⟨-, heq⟩ | ⟨g, hg, hname, -⟩ | ⟨k, -, -, heq⟩)
      · contradiction
      · obtain rfl : g = f := by
          cases g <;> cases f <;> first | rfl | exact absurd hname (by decide)
        exact hg
      · contradiction

end Run

namespace Run

theorem last?_color (r : Run) :
    last? "color" (r.members.map Json.MemberText.member) =
      r.style.colour.map fun k => .text (some k.name) := by
  cases hcolour : r.style.colour with
  | some k => exact (r.isOwn.colour k).1 hcolour
  | none =>
    refine Option.eq_none_iff_forall_ne_some.2 fun j hj => ?_
    rw [last?_eq_some r.names_nodup, mem_members, hcolour] at hj
    rcases hj with ⟨hname, -⟩ | ⟨f, -, hname, -⟩ | ⟨k, hk, -⟩
    · exact absurd hname (by decide)
    · exact absurd hname (by cases f <;> decide)
    · contradiction

theorem last?_extra (r : Run) : last? "extra" (r.members.map Json.MemberText.member) = none := by
  refine Option.eq_none_iff_forall_ne_some.2 fun j hj => ?_
  rw [last?_eq_some r.names_nodup, mem_members] at hj
  rcases hj with ⟨hname, -⟩ | ⟨f, -, hname, -⟩ | ⟨k, -, hname, -⟩
  · exact absurd hname (by decide)
  · exact absurd hname (by cases f <;> decide)
  · exact absurd hname (by decide)

theorem ofMembers_members (r : Run) :
    ofMembers (r.members.map Json.MemberText.member) = r.component := by
  have hrun := (isOwn_ofMembers _).unique r.isOwn
  have hnames : (ofMembers (r.members.map Json.MemberText.member)).namesColour =
      r.style.colour.isSome := by
    rw [ofMembers, r.last?_color, Option.isSome_map]
  exact Component.mk.injEq .. ▸ ⟨congrArg Run.text hrun, hnames, congrArg Run.style hrun⟩

end Run

/-- A run that is written is read as its component. -/
theorem ofJson_json (r : Run) : ofJson r.json = [r.component] := by
  rw [Run.json]
  split
  · rename_i hplain
    obtain ⟨text, style⟩ := r
    obtain rfl : style = .plain := hplain
    simp [ofJson, Component.blank, Run.component, Style.plain]
  · rw [ofJson, ofExtra_eq, r.last?_extra, r.ofMembers_members]
    rfl

theorem ofItems_json (rs : List Run) : ofItems (rs.map Run.json) = rs.map Run.component := by
  induction rs with
  | nil => rfl
  | cons r rest ih =>
    rw [List.map_cons, ofItems, ofJson_json, ih]
    rfl

/-! ## The normal form of styled characters -/

/-- Styled characters as section text: before each character the codes that change the style. -/
def written (current : Style) : List (Char × Style) → List Char
  | [] => []
  | (c, style) :: rest =>
    signed (Component.codes current (Run.component ⟨[], style⟩)) ++ c :: written style rest

/-- No code leads from a style to itself. -/
theorem codes_component (text : List Char) (style : Style) :
    Component.codes style (Run.component ⟨text, style⟩) = [] := by
  have hreset : Component.needsReset style (Run.component ⟨text, style⟩) = false := by
    cases hcolour : style.colour <;> simp [Component.needsReset, Run.component, hcolour]
  have hbase : Component.base style (Run.component ⟨text, style⟩) = style := by
    simp [Component.base, hreset]
  rw [Component.codes, hreset, hbase]
  cases hcolour : style.colour <;>
    simp [Component.colourCodes, Component.newFlags, Run.component, hcolour]

theorem written_same (style : Style) (text : List Char) (rest : List (Char × Style)) :
    written style (text.map (·, style) ++ rest) = text ++ written style rest := by
  induction text with
  | nil => rfl
  | cons c text ih =>
    rw [List.map_cons, List.cons_append, written, codes_component, ih]
    rfl

theorem written_characters (h : r.text ≠ []) (current : Style) (rest : List (Char × Style)) :
    written current (r.characters ++ rest) =
      signed (Component.codes current r.component) ++ (r.text ++ written r.style rest) := by
  obtain ⟨text, style⟩ := r
  cases text with
  | nil => contradiction
  | cons c text =>
    rw [Run.characters, List.map_cons, List.cons_append, written, written_same]
    rfl

theorem sectionFrom_component (h : ∀ r ∈ rs, r.Proper) (current : Style) :
    Component.sectionFrom current (rs.map Run.component) =
      written current (rs.flatMap Run.characters) := by
  induction rs generalizing current with
  | nil => rfl
  | cons r rest ih =>
    rw [List.flatMap_cons, written_characters (h r (by simp)).1,
      ← ih fun r hr => h r (List.mem_cons_of_mem _ hr), List.map_cons, Component.sectionFrom,
      Component.tracked_eq]
    exact List.append_assoc _ _ _

theorem styled_written (h : ∀ r ∈ rs, r.Proper) :
    styled (written .plain (rs.flatMap Run.characters)) = rs.flatMap Run.characters := by
  rw [← sectionFrom_component h, styled, styledFrom_sectionFrom, List.map_map]
  · exact congrArg (List.flatMap _) (List.map_id rs)
  · exact List.forall_mem_map.2 fun r hr => (h r hr).2

/-! ## Section text after the way to JSON and back -/

def respelled (s : List Char) : List Char := ofComponents (toComponents s)

theorem depthMembers_eq_zero {ms : List (Option String × Json)} (h : ∀ m ∈ ms, m.2.depth = 0) :
    Json.depthMembers ms = 0 := by
  induction ms with
  | nil => rfl
  | cons m rest ih =>
    rw [List.forall_mem_cons] at h
    rw [Json.depthMembers, h.1, ih h.2]
    rfl

theorem Run.depth_json (r : Run) : r.json.depth ≤ 1 := by
  have hmembers : Json.depthMembers (r.members.map Json.MemberText.member) = 0 :=
    depthMembers_eq_zero (List.forall_mem_map.2
      (forall_mem_members.2 ⟨rfl, fun _ _ => rfl, fun _ _ => rfl⟩))
  rw [Run.json]
  split
  · exact Nat.zero_le 1
  · rw [Json.depth, hmembers]

theorem depthItems_json (rs : List Run) : Json.depthItems (rs.map Run.json) ≤ 1 := by
  induction rs with
  | nil => exact Nat.zero_le 1
  | cons r rest ih => exact Nat.max_le.2 ⟨r.depth_json, ih⟩

theorem respelled_eq (s : List Char) : respelled s = written .plain (styled s) := by
  have hdepth : (Json.array ((runs s).map Run.json)).depth ≤ Json.depthLimit :=
    Nat.succ_le_succ ((depthItems_json (runs s)).trans (by decide))
  rw [respelled, toComponents, ofComponents_of_denotes (denotes_renderRuns (runs s)) hdepth,
    ofJson, ofItems_json, sectionFrom_component (proper_runs s), characters_runs]

theorem styled_respelled (s : List Char) : styled (respelled s) = styled s := by
  have hwritten := styled_written (proper_runs s)
  rwa [characters_runs, ← respelled_eq] at hwritten

/-! ### Lines -/

theorem mem_of_mem_styledFrom {c : Char} {style style' : Style} {s : List Char}
    (h : (c, style') ∈ styledFrom style s) : c ∈ s := by
  induction style, s using styledFrom.induct with
  | case1 style => cases h
  | case2 style => cases h
  | case3 style code more next hcode ih =>
    rw [styledFrom_sign, hcode] at h
    exact List.mem_cons_of_mem _ (List.mem_cons_of_mem _ (ih h))
  | case4 style code more hcode ih =>
    rw [styledFrom_sign, hcode] at h
    exact List.mem_cons_of_mem _ (ih h)
  | case5 style c' more hc ih =>
    rw [styledFrom_cons hc] at h
    rcases List.mem_cons.1 h with heq | h
    · cases heq
      exact List.mem_cons_self
    · exact List.mem_cons_of_mem _ (ih h)

/-- A line break is no code, so no codes that lead to a style contain one. -/
theorem break_not_mem_signed {style' : Style} {codes : List Char}
    (h : afterCodes? style codes = some style') : '\n' ∉ signed codes := by
  induction codes generalizing style with
  | nil => exact List.not_mem_nil
  | cons code more ih =>
    rw [afterCodes?, List.foldlM_cons] at h
    obtain ⟨next, hnext, hmore⟩ := Option.bind_eq_some_iff.1 h
    have hsign : '\n' ≠ Style.sign := by decide
    have hcode : '\n' ≠ code := by
      rintro rfl
      have hunknown : style.afterCode? '\n' = none := rfl
      rw [hunknown] at hnext
      contradiction
    simpa [signed, hsign, hcode] using ih hmore

theorem break_not_mem_written {ps : List (Char × Style)} (h : ∀ p ∈ ps, p.1 ≠ '\n')
    (current : Style) : '\n' ∉ written current ps := by
  induction ps generalizing current with
  | nil => exact List.not_mem_nil
  | cons p rest ih =>
    rw [List.forall_mem_cons] at h
    rw [written, List.mem_append, List.mem_cons]
    rintro (hcode | hchar | hrest)
    · exact break_not_mem_signed (Component.afterCodes?_codes _ _) hcode
    · exact h.1 hchar.symm
    · exact ih h.2 p.2 hrest

theorem break_not_mem_respelled (h : '\n' ∉ s) : '\n' ∉ respelled s := by
  rw [respelled_eq]
  refine break_not_mem_written (fun p hp heq => h ?_) .plain
  rw [← heq]
  exact mem_of_mem_styledFrom hp

/-- The way to JSON and back keeps the styled characters and depends on nothing else, so taking it
twice changes no more than taking it once. Of several lines it keeps each line. -/
theorem respelled_normal :
    (∀ s, styled (respelled s) = styled s) ∧
      (∀ s t, styled s = styled t → respelled s = respelled t) ∧
      (∀ s, respelled (respelled s) = respelled s) ∧
      ∀ s, Text.splitAll '\n' (linesOfComponents (linesToComponents s)) =
        (Text.splitAll '\n' s).map respelled := by
  have hsame : ∀ s t, styled s = styled t → respelled s = respelled t := fun s t h => by
    rw [respelled_eq, respelled_eq, h]
  refine ⟨styled_respelled, hsame, fun s => hsame _ _ (styled_respelled s), fun s => ?_⟩
  rw [linesOfComponents, linesToComponents, List.map_map]
  refine Text.splitAll_joinWith ?_ (List.forall_mem_map.2 fun line hline => ?_)
  · exact fun hnil => Text.splitAll_ne_nil '\n' s (List.map_eq_nil_iff.1 hnil)
  · exact break_not_mem_respelled (Text.not_mem_of_mem_splitAll hline)

end BlockConvert.StyledText
