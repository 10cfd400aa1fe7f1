import BlockConvert.Proofs.Snbt.Elements
import BlockConvert.Proofs.Snbt.Reading

set_option autoImplicit false

/-!
# What the text of a tag is read as

The text of every tag is laid out like a value, so what it is read as can be told from the tag
itself, without the text. Most tags come back. A floating point value comes back if its text looks
like a number, and as a text if not; a list then may hold elements of two kinds, which is a fault.
-/

namespace BlockConvert

namespace Snbt

open Decimal (Format)
open Text (Closes)

variable {t : Tag} {text cs : List Char} {bound : Nat} {c quote suffix : Char}

mutual

/-- What is read from the text of the tag. -/
def reread : Tag → Except Fault Tag
  | .float b => .ok (classify (render (.float b)))
  | .double b => .ok (classify (render (.double b)))
  | .list _ items => (rereadItems items).bind listOf
  | .compound entries => (rereadEntries entries).map fun es => .compound (Table.ofEntries es)
  | t => .ok t

def rereadItems : List Tag → Except Fault (List Tag)
  | [] => .ok []
  | t :: rest => do
    let u ← reread t
    let us ← rereadItems rest
    return u :: us

def rereadEntries : List (String × Tag) → Except Fault (List (String × Tag))
  | [] => .ok []
  | (k, t) :: rest => do
    let u ← reread t
    let es ← rereadEntries rest
    return (k, u) :: es

end

def rereadEntry (e : String × Tag) : Except Fault (String × Tag) :=
  (reread e.2).map fun t => (e.1, t)

def renderEntry (e : String × Tag) : List Char := renderKey e.1 ++ ':' :: render e.2

theorem rereadItems_eq_mapM (items : List Tag) : rereadItems items = items.mapM reread := by
  induction items with
  | nil => rfl
  | cons t rest ih => rw [rereadItems, ih, List.mapM_cons]

theorem rereadEntries_eq_mapM (entries : List (String × Tag)) :
    rereadEntries entries = entries.mapM rereadEntry := by
  induction entries with
  | nil => rfl
  | cons e rest ih =>
    rw [rereadEntries, ih, List.mapM_cons, rereadEntry]
    cases reread e.2 <;> rfl

theorem renderItems_eq_map (items : List Tag) : renderItems items = items.map render := by
  induction items with
  | nil => rfl
  | cons t rest ih => rw [renderItems, ih, List.map_cons]

theorem renderEntries_eq_map (entries : List (String × Tag)) :
    renderEntries entries = entries.map renderEntry := by
  induction entries with
  | nil => rfl
  | cons e rest ih => rw [renderEntries, ih, List.map_cons, renderEntry]

/-! ## Texts and keys -/

theorem spellsText_append {inner inner' text' : List Char} (h : SpellsText quote inner text)
    (h' : SpellsText quote inner' text') :
    SpellsText quote (inner ++ inner') (text ++ text') := by
  induction h with
  | nil => exact h'
  | plain hquote hslash _ ih => exact .plain hquote hslash ih
  | line _ ih => exact .line ih
  | escaped hn _ ih => exact .escaped hn ih

theorem spellsText_escape (c : Char) : SpellsText '"' (escape c) [c] := by
  unfold escape
  split
  · rename_i hc
    subst hc
    exact .escaped (by decide) .nil
  split
  · rename_i hc
    subst hc
    exact .escaped (by decide) .nil
  split
  · rename_i hc
    subst hc
    exact .line .nil
  · rename_i hquote hslash _
    exact .plain hquote hslash .nil

theorem spellsText_escaped (cs : List Char) : SpellsText '"' (cs.flatMap escape) cs := by
  induction cs with
  | nil => exact .nil
  | cons c cs ih => exact spellsText_append (spellsText_escape c) ih

theorem denotesQuoted_renderText (s : String) : DenotesQuoted (renderText s) s := by
  have h := DenotesQuoted.mk (.inl rfl) (spellsText_escaped s.toList)
  rwa [String.ofList_toList] at h

theorem denotesKey_renderKey (k : String) : DenotesKey (renderKey k) k := by
  unfold renderKey
  split
  · rename_i h
    simp only [Bool.and_eq_true, Bool.not_eq_true', List.isEmpty_eq_false_iff, List.all_eq_true]
      at h
    have hkey := DenotesKey.bare h
    rwa [String.ofList_toList] at hkey
  · exact .quoted (denotesQuoted_renderText k)

/-! ## Words -/

theorem IsBareWord.append (h : IsBareWord text) (hc : isBare c = true) :
    IsBareWord (text ++ [c]) := by
  refine ⟨by simp, fun d hd => ?_⟩
  rcases List.mem_append.1 hd with hmem | hmem
  · exact h.2 d hmem
  · rwa [List.mem_singleton.1 hmem]

theorem isBareWord_signed (n : Int) : IsBareWord (Decimal.signed n) := by
  refine ⟨?_, isBare_signed n⟩
  intro hnil
  have hlooks := looksNumeric_signed n
  rw [hnil] at hlooks
  contradiction

/-- Of the values without a text to be read back from, the text is one of two words. -/
theorem text_of_not_hasText {f : Format} {bits : Nat} (h : ¬f.HasText bits) :
    Decimal.Notation.tagged.text f (f.decode bits) = ['N', 'a', 'N'] ∨
      Decimal.Notation.tagged.text f (f.decode bits) = ['i', 'n', 'f'] := by
  cases hmeaning : f.decode bits with
  | nan quiet => exact .inl rfl
  | infinite negative =>
    cases negative with
    | true => exact absurd (.inr hmeaning) h
    | false => exact .inr rfl
  | finite negative m e => exact absurd (.inl ⟨negative, m, e, hmeaning⟩) h

theorem isBareWord_floating {f : Format} {bits : Nat} (hf : f.Supported) (hfits : f.Fits bits)
    (hsuffix : isBare suffix = true) : IsBareWord (renderFloating f bits suffix) := by
  refine IsBareWord.append ?_ hsuffix
  by_cases h : f.HasText bits
  · obtain ⟨hspells, -⟩ := Format.floating?_text hf hfits h
    refine ⟨?_, isBare_of_spells hspells⟩
    intro hnil
    have hlooks := looksNumeric_of_spells hspells
    rw [hnil] at hlooks
    contradiction
  · rcases text_of_not_hasText h with htext | htext <;> rw [htext] <;>
      exact ⟨List.cons_ne_nil _ _, List.all_eq_true.1 rfl⟩

theorem isBareWord_float (b : UInt32) : IsBareWord (render (.float b)) :=
  isBareWord_floating Format.single_supported (fits_float b) (by decide)

theorem isBareWord_double (b : UInt64) : IsBareWord (render (.double b)) :=
  isBareWord_floating Format.double_supported (fits_double b) (by decide)

theorem yields_word (hbare : IsBareWord text) (h : classify text = t) :
    Yields (value (bound + 1)) text (.ok t) :=
  h ▸ value_word hbare

theorem yields_byte (v : Int8) : Yields (value (bound + 1)) (render (.byte v)) (.ok (.byte v)) :=
  yields_word ((isBareWord_signed _).append (by decide)) (classify_byte v)

theorem yields_short (v : Int16) :
    Yields (value (bound + 1)) (render (.short v)) (.ok (.short v)) :=
  yields_word ((isBareWord_signed _).append (by decide)) (classify_short v)

theorem yields_int (v : Int32) : Yields (value (bound + 1)) (render (.int v)) (.ok (.int v)) :=
  yields_word (isBareWord_signed _) (classify_int v)

theorem yields_long (v : Int64) : Yields (value (bound + 1)) (render (.long v)) (.ok (.long v)) :=
  yields_word ((isBareWord_signed _).append (by decide)) (classify_long v)

/-! ## First characters -/

theorem render_cases (t : Tag) : IsBareWord (render t) ∨ (∃ s, DenotesQuoted (render t) s) ∨
    ∃ c cs, render t = c :: cs ∧ (c = '[' ∨ c = '\x7b') := by
  cases t with
  | byte v => exact .inl ((isBareWord_signed _).append (by decide))
  | short v => exact .inl ((isBareWord_signed _).append (by decide))
  | int v => exact .inl (isBareWord_signed _)
  | long v => exact .inl ((isBareWord_signed _).append (by decide))
  | float b => exact .inl (isBareWord_float b)
  | double b => exact .inl (isBareWord_double b)
  | string s => exact .inr (.inl ⟨s, denotesQuoted_renderText s⟩)
  | compound entries => exact .inr (.inr ⟨_, _, rfl, .inr rfl⟩)
  | _ => exact .inr (.inr ⟨_, _, rfl, .inl rfl⟩)

theorem opens_render (t : Tag) : Opens (render t) := by
  rcases render_cases t with hbare | ⟨s, hquoted⟩ | ⟨c, cs, heq, hc⟩
  · exact hbare.opens
  · exact hquoted.opens
  · rw [heq]
    rcases hc with rfl | rfl <;> exact Text.opens_cons (by decide) (by unfold Closes; decide)

theorem unmarked_render (t : Tag) : Unmarked (render t) := by
  rcases render_cases t with hbare | ⟨s, hquoted⟩ | ⟨c, cs, heq, hc⟩
  · exact hbare.unmarked
  · exact hquoted.unmarked
  · rw [heq]
    rcases hc with rfl | rfl <;> exact unmarked_cons (by decide)

theorem opens_renderEntry (e : String × Tag) : Opens (renderEntry e) :=
  (denotesKey_renderKey e.1).opens.append _

/-! ## All tags -/

theorem length_item_lt (element : Option Kind) {items : List Tag} (h : t ∈ items) :
    (render t).length < (render (.list element items)).length := by
  have hle := Text.length_le_of_mem ',' (List.mem_map_of_mem (f := render) h)
  rw [render, renderItems_eq_map, List.length_cons, List.length_append]
  omega

theorem length_entry_lt {entries : List (String × Tag)} {e : String × Tag} (h : e ∈ entries) :
    (render e.2).length < (render (.compound entries)).length := by
  have hle := Text.length_le_of_mem ',' (List.mem_map_of_mem (f := renderEntry) h)
  rw [renderEntry, List.length_append, List.length_cons] at hle
  rw [render, renderEntries_eq_map, List.length_cons, List.length_append]
  omega

theorem yields_array {α : Type} {mark : Char} {ending : List Char} {array : Kind} {f : α → Int}
    {make : α → Tag} {vs : List α}
    (hmark : ∀ cs, arrayMark? (mark :: ';' :: cs) = some (array, cs))
    (hrender : ∀ v, Decimal.signed (f v) ++ ending = render (make v))
    (hread : ∀ {n : Nat} v, Yields (value (n + 1)) (render (make v)) (.ok (make v)))
    (harray : arrayOf array (vs.map make) = .ok t)
    (hbound : (renderArray mark ending (vs.map f)).length < bound + 1) :
    Yields (value (bound + 1)) (renderArray mark ending (vs.map f)) (.ok t) := by
  obtain ⟨n, rfl⟩ : ∃ n, bound = n + 1 :=
    ⟨bound - 1, by rw [renderArray, List.length_cons] at hbound; omega⟩
  rw [renderArray, List.map_map]
  have hitems : ∀ v ∈ vs,
      Yields (value (n + 1)) (Decimal.signed (f v) ++ ending) (.ok (make v)) := fun v _ =>
    (hrender v).symm ▸ hread v
  have hlaid := value_array hmark (Text.encloses_joinWith _) hitems fun v _ =>
    (hrender v).symm ▸ opens_render (make v)
  rw [mapM_ok, Except.bind, harray] at hlaid
  exact hlaid

theorem yields_render (hbound : (render t).length < bound) :
    Yields (value bound) (render t) (reread t) := by
  induction bound generalizing t with
  | zero => contradiction
  | succ bound ih =>
    cases t with
    | byte v => exact yields_byte v
    | short v => exact yields_short v
    | int v => exact yields_int v
    | long v => exact yields_long v
    | float b => exact yields_word (isBareWord_float b) rfl
    | double b => exact yields_word (isBareWord_double b) rfl
    | string s => exact value_quoted (denotesQuoted_renderText s)
    | byteArray vs =>
      exact yields_array (fun _ => rfl) (fun _ => rfl) yields_byte
        ((arrayOf_eq_ok (by decide)).2 (.bytes vs)) hbound
    | intArray vs =>
      exact yields_array (fun _ => rfl) (fun _ => List.append_nil _) yields_int
        ((arrayOf_eq_ok (by decide)).2 (.ints vs)) hbound
    | longArray vs =>
      have helements : List.Forall₂ IsLongElement (vs.map .long) vs :=
        List.forall₂_map_left_iff.2 (List.forall₂_same.2 fun v _ => .long v)
      exact yields_array (fun _ => rfl) (fun _ => rfl) yields_long
        ((arrayOf_eq_ok (by decide)).2 (.longs helements)) hbound
    | list element items =>
      have hitems : ∀ u ∈ items, Yields (value bound) (render u) (reread u) := fun u hu =>
        ih (Nat.lt_of_lt_of_le (length_item_lt element hu) (Nat.le_of_lt_succ hbound))
      rw [reread, rereadItems_eq_mapM, render, renderItems_eq_map]
      exact value_list (Text.encloses_joinWith _) hitems (fun u _ => opens_render u)
        fun u _ => unmarked_render u
    | compound entries =>
      have hentries : ∀ e ∈ entries,
          Yields (entry (value bound)) (renderEntry e) (rereadEntry e) := fun e he =>
        entry_yields (denotesKey_renderKey e.1)
          (ih (Nat.lt_of_lt_of_le (length_entry_lt he) (Nat.le_of_lt_succ hbound)))
      rw [reread, rereadEntries_eq_mapM, render, renderEntries_eq_map]
      exact value_compound (Text.encloses_joinWith _) hentries fun e _ => opens_renderEntry e

theorem readChars_render (t : Tag) :
    readChars (render t) = (reread t).mapError (SnbtError.ofFault (render t)) := by
  obtain ⟨r, hr, hread⟩ := yields_render (Nat.lt_succ_self (render t).length) [] ends_nil
  have hskip : Text.skip Text.isBlank r = [] := hr
  rw [List.append_nil] at hread
  rw [readChars, hread]
  cases reread t with
  | error fault => rfl
  | ok u => simp only [Except.map, Except.mapError, hskip]

end Snbt

/-- What is read from the text of a tag, whatever the tag. -/
theorem Tag.ofSnbt_snbt_eq_ok {t u : Tag} : ofSnbt t.snbt = .ok u ↔ Snbt.reread t = .ok u := by
  rw [ofSnbt, snbt, String.toList_ofList, Snbt.readChars_render]
  cases Snbt.reread t <;> simp [Except.mapError]

end BlockConvert
