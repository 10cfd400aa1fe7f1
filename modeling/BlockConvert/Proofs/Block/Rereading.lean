import BlockConvert.Proofs.Block.Commas

set_option autoImplicit false

/-!
# The text of a block is read as the block

A block without layers comes back from its text if its names keep clear of the signs that the reader
looks for and of blanks at the ends, and its properties are numbers and texts. There is no condition
on the characters of a text: its quotes and escapes are seen alike by the scan for commas and by the
reader of tags. Blanks in front of the name space are lost, since the reader trims the whole text;
all else comes back in any case.
-/

namespace BlockConvert

namespace Text

structure Unpadded (cs : List Char) : Prop where
  head : ∀ c ∈ cs.head?, isBlank c = false
  last : ∀ c ∈ cs.getLast?, isBlank c = false

theorem Unpadded.trim_eq {cs : List Char} (h : Unpadded cs) : trim cs = cs :=
  trim_of_ends h.head h.last

end Text

open Text (Unpadded)

def Tag.IsScalar : Tag → Prop
  | byteArray _ | intArray _ | longArray _ | list _ _ | compound _ => False
  | _ => True

theorem Tag.IsScalar.throughout {P : Tag → Prop} {t : Tag} (h : t.IsScalar) (ht : P t) :
    t.Throughout P := by
  refine throughout_of_childless ?_ ht
  cases t <;> first | rfl | exact h.elim

namespace Blockstate

open Block (propertyChars propertiesChars)

variable {v : Tag} {cs rest : List Char} {c : Char} {e : String × Tag} {b : Block}

/-! ## The texts of values -/

structure ValueText (cs : List Char) : Prop where
  ne_nil : cs ≠ []
  unpadded : Unpadded cs
  passes : Scan.outside.Passes cs .outside
  notWord : isWord cs = false

theorem valueText_quoted {s : String} (h : Snbt.DenotesQuoted cs s) : ValueText cs := by
  have hpasses := passes_quoted h
  cases h with
  | @mk quote inner _ hquote _ =>
    refine ⟨List.cons_ne_nil _ _, ⟨fun c hc => ?_, fun c hc => ?_⟩, hpasses, ?_⟩
    · rw [← Option.some.inj hc]
      exact hquote.not_isBlank
    · rw [← List.cons_append, List.getLast?_concat] at hc
      rw [← Option.some.inj hc]
      exact hquote.not_isBlank
    · rcases hquote with rfl | rfl <;> exact Bool.and_eq_false_iff.2 (.inr rfl)

theorem not_isAlpha_of_isDigit (h : c.isDigit = true) : c.isAlpha = false := by
  have hcode : c.val.toNat ≤ 57 := (Char.isDigit_iff_toNat.1 h).2
  have hbefore (letter : UInt32) (hletter : 57 < letter.toNat) : ¬letter ≤ c.val := fun hle =>
    absurd (UInt32.le_iff_toNat_le.1 hle) (by omega)
  have hupper : c.isUpper = false := decide_eq_false fun h => hbefore 65 (by decide) h.1
  have hlower : c.isLower = false :=
    Bool.and_eq_false_iff.2 (.inl (decide_eq_false (hbefore 97 (by decide))))
  exact Bool.or_eq_false_iff.2 ⟨hupper, hlower⟩

theorem not_isAlpha_of_looksNumeric (h : Snbt.looksNumeric (c :: rest) = true) :
    c.isAlpha = false := by
  simp only [Snbt.looksNumeric, Bool.or_eq_true, beq_iff_eq] at h
  rcases h with ((hdigit | rfl) | rfl) | rfl
  · exact not_isAlpha_of_isDigit hdigit
  all_goals decide

theorem valueText_number (h : Snbt.IsBareWord cs) (hlooks : Snbt.looksNumeric cs = true) :
    ValueText cs := by
  have hblank {c : Char} (hc : c ∈ cs) : Text.isBlank c = false :=
    Snbt.not_isBlank_of_isBare (h.2 c hc)
  refine ⟨h.1, ⟨fun c hc => hblank (List.mem_of_mem_head? hc),
    fun c hc => hblank (List.mem_of_getLast? hc)⟩, passes_bareWord h, ?_⟩
  obtain ⟨c, rest, rfl⟩ := List.exists_cons_of_ne_nil h.1
  exact Bool.and_eq_false_iff.2 (.inr (not_isAlpha_of_looksNumeric hlooks))

theorem valueText_suffixed {body : List Char} {suffix : Char} (h : Snbt.IsBareWord body)
    (hlooks : Snbt.looksNumeric body = true) (hsuffix : Snbt.isBare suffix = true) :
    ValueText (body ++ [suffix]) :=
  valueText_number (h.append hsuffix) ((Snbt.looksNumeric_append h.1).trans hlooks)

theorem valueText_floating {f : Decimal.Format} {bits : Nat} {suffix : Char} (hf : f.Supported)
    (hfits : f.Fits bits) (htext : f.HasText bits) (hsuffix : Snbt.isBare suffix = true) :
    ValueText (Snbt.renderFloating f bits suffix) := by
  have hspells := (Decimal.Format.floating?_text hf hfits htext).1
  have hlooks := Snbt.looksNumeric_of_spells hspells
  refine valueText_suffixed ⟨?_, Snbt.isBare_of_spells hspells⟩ hlooks hsuffix
  intro hnil
  rw [hnil] at hlooks
  contradiction

theorem valueText_render (hscalar : v.IsScalar) (hprintable : v.Printable) :
    ValueText (Snbt.render v) := by
  cases v with
  | byte n | short n | long n =>
    exact valueText_suffixed (Snbt.isBareWord_signed _) (Snbt.looksNumeric_signed _) (by decide)
  | int n => exact valueText_number (Snbt.isBareWord_signed _) (Snbt.looksNumeric_signed _)
  | float bits =>
    exact valueText_floating Decimal.Format.single_supported (Snbt.fits_float bits) hprintable
      (by decide)
  | double bits =>
    exact valueText_floating Decimal.Format.double_supported (Snbt.fits_double bits) hprintable
      (by decide)
  | string s => exact valueText_quoted (Snbt.denotesQuoted_renderText s)
  | _ => exact hscalar.elim

theorem propertyValue_render (key : List Char) (hscalar : v.IsScalar) (hprintable : v.Printable) :
    propertyValue key (Snbt.render v) = .ok v := by
  rw [propertyValue, (valueText_render hscalar hprintable).notWord, Snbt.readChars_render,
    Snbt.reread_of_printable (hscalar.throughout hprintable)]
  rfl

/-! ## Properties -/

structure ReadableProperty (e : String × Tag) : Prop where
  unpadded : Unpadded e.1.toList
  clear : ∀ c ∈ e.1.toList, c ≠ '=' ∧ c ≠ ',' ∧ ¬Snbt.IsQuote c
  scalar : e.2.IsScalar
  printable : e.2.Printable

namespace ReadableProperty

theorem value (h : ReadableProperty e) : ValueText (Snbt.render e.2) :=
  valueText_render h.scalar h.printable

theorem passes (h : ReadableProperty e) : Scan.outside.Passes (propertyChars e) .outside := by
  have hname : Scan.outside.Passes (e.1.toList ++ ['=']) .outside := by
    refine passes_plain fun c hc => ?_
    rcases List.mem_append.1 hc with hmem | hmem
    · exact (h.clear c hmem).2
    · rw [List.mem_singleton.1 hmem]
      exact ⟨by decide, by unfold Snbt.IsQuote; decide⟩
  rw [propertyChars, List.append_cons]
  exact hname.append h.value.passes

theorem chars_unpadded (h : ReadableProperty e) : Unpadded (propertyChars e) where
  head c hc := by
    cases hname : e.1.toList with
    | nil =>
      rw [propertyChars, hname] at hc
      rw [← Option.some.inj hc]
      decide
    | cons d ds =>
      rw [propertyChars, hname] at hc
      refine h.unpadded.head c ?_
      rw [hname]
      exact hc
  last c hc := by
    refine h.value.unpadded.last c ?_
    obtain ⟨d, ds, hvalue⟩ := List.exists_cons_of_ne_nil h.value.ne_nil
    rw [propertyChars, hvalue] at hc
    rw [hvalue]
    simpa using hc

theorem addProperty_eq (h : ReadableProperty e) (properties : Properties) :
    addProperty properties (propertyChars e) = .ok (properties.insert e.1 e.2) := by
  have hne : (propertyChars e).isEmpty = false := by simp [propertyChars]
  -- the value may have equals signs too, but the first one is the one after the name
  have hequals : '=' ∉ e.1.toList := fun hmem => (h.clear '=' hmem).1 rfl
  have hsplit : Text.splitOnce '=' (propertyChars e) = some (e.1.toList, Snbt.render e.2) :=
    Text.splitOnce_append hequals _
  have hvalue := propertyValue_render e.1.toList h.scalar h.printable
  simp only [addProperty, h.chars_unpadded.trim_eq, hne, hsplit, h.unpadded.trim_eq,
    h.value.unpadded.trim_eq, hvalue, Bool.false_eq_true, if_false, String.ofList_toList]
  rfl

end ReadableProperty

theorem foldlM_addProperty {es : List (String × Tag)} (h : ∀ e ∈ es, ReadableProperty e)
    (properties : Properties) :
    (es.map propertyChars).foldlM addProperty properties = .ok (properties.extend es) := by
  induction es generalizing properties with
  | nil => rfl
  | cons e rest ih =>
    rw [List.map_cons, List.foldlM_cons, (h e (by simp)).addProperty_eq]
    exact ih (fun d hd => h d (List.mem_cons_of_mem _ hd)) _

theorem foldlM_splitProperties {properties : Properties} (hne : properties.entries ≠ [])
    (h : ∀ e ∈ properties.entries, ReadableProperty e) :
    (splitProperties .outside
      (Text.joinWith ',' (properties.entries.map propertyChars))).foldlM addProperty ∅ =
        .ok properties := by
  have hpasses : ∀ piece ∈ properties.entries.map propertyChars,
      Scan.outside.Passes piece .outside := by
    intro piece hpiece
    obtain ⟨e, he, rfl⟩ := List.mem_map.1 hpiece
    exact (h e he).passes
  rw [splitProperties_joinWith (by simpa using hne) hpasses, foldlM_addProperty h]
  exact congrArg Except.ok (Dict.eq_of_entries (Table.ofEntries_of_sorted properties.sorted))

end Blockstate

/-- A block without layers whose text can be read: its names keep clear of the signs that end them,
the base name does not end with a blank, and the properties are readable. -/
structure Block.Readable (b : Block) : Prop where
  layers : b.layers = []
  space : ':' ∉ b.id.space.toList ∧ '[' ∉ b.id.space.toList
  base : b.id.base ≠ "" ∧ '[' ∉ b.id.base.toList
  base_end : ∀ c ∈ b.id.base.toList.getLast?, Text.isBlank c = false
  properties : ∀ e ∈ b.properties.entries, Blockstate.ReadableProperty e

namespace Block.Readable

open Blockstate

variable {b : Block}

theorem base_ne_nil (h : b.Readable) : b.id.base.toList ≠ [] := fun hnil =>
  h.base.1 (String.toList_injective hnil)

theorem blank_of_last (h : b.Readable) :
    ∀ c ∈ (b.id.base.toList ++ propertiesChars b.properties).getLast?, Text.isBlank c = false := by
  by_cases hempty : b.properties.entries = []
  · rw [propertiesChars_nil hempty, List.append_nil]
    exact h.base_end
  · intro c hc
    rw [propertiesChars_of_ne hempty, ← List.cons_append, ← List.append_assoc,
      List.getLast?_concat] at hc
    rw [← Option.some.inj hc]
    decide

/-- The name as it is read: the blanks in front of the space are trimmed. -/
def nameChars (id : RecordId) : List Char :=
  Text.trimLeft id.space.toList ++ ':' :: id.base.toList

theorem trim_baseChars (h : b.Readable) :
    Text.trim b.baseChars = nameChars b.id ++ propertiesChars b.properties := by
  have hlast : ∀ c ∈ (nameChars b.id ++ propertiesChars b.properties).getLast?,
      Text.isBlank c = false := by
    intro c hc
    -- the base name is not empty, so the last character is the same without the space
    refine h.blank_of_last c ?_
    have hne : b.id.base.toList ++ propertiesChars b.properties ≠ [] :=
      List.append_ne_nil_of_left_ne_nil h.base_ne_nil _
    obtain ⟨d, ds, heq⟩ := List.exists_cons_of_ne_nil hne
    rw [nameChars, List.append_assoc, List.cons_append, heq] at hc
    rw [heq]
    simpa using hc
  rw [baseChars_eq, Text.trim, Text.trimLeft_append_cons (by decide),
    ← Text.trimRight_of_last hlast, nameChars, List.append_assoc, List.cons_append]

theorem bracket_not_mem (h : b.Readable) : '[' ∉ nameChars b.id := by
  intro hmem
  rcases List.mem_append.1 hmem with hspace | hbase
  · exact h.space.2 ((List.dropWhile_sublist _).subset hspace)
  · rcases List.mem_cons.1 hbase with heq | hbase
    · exact absurd heq (by decide)
    · exact h.base.2 hbase

theorem ofName_nameChars (h : b.Readable) : RecordId.ofName (String.ofList (nameChars b.id)) =
    ⟨String.ofList (Text.trimLeft b.id.space.toList), b.id.base⟩ := by
  have hcolon : ':' ∉ Text.trimLeft b.id.space.toList := fun hmem =>
    h.space.1 ((List.dropWhile_sublist _).subset hmem)
  rw [RecordId.ofName, RecordId.ofText?, String.toList_ofList, nameChars,
    Text.splitOnce_append hcolon]
  simp only [Option.map_some, Option.getD_some, String.ofList_toList]

theorem splitName_bare (h : b.Readable) :
    splitName (nameChars b.id) = .ok (nameChars b.id, none) := by
  rw [splitName, Text.splitOnce_eq_none_iff.2 h.bracket_not_mem]

theorem splitName_bracketed (h : b.Readable) (inner : List Char) :
    splitName (nameChars b.id ++ '[' :: (inner ++ [']'])) =
      .ok (nameChars b.id, some inner) := by
  rw [splitName, Text.splitOnce_append h.bracket_not_mem]
  simp only [List.getLast?_concat, List.dropLast_concat, if_true]

/-- All comes back but the blanks in front of the space. -/
theorem readChars_baseChars (h : b.Readable) : readChars b.baseChars =
    .ok (Block.new ⟨String.ofList (Text.trimLeft b.id.space.toList), b.id.base⟩ b.properties) := by
  have hbase : b.id.base.isEmpty = false := by
    simpa using h.base.1
  rw [readChars, h.trim_baseChars]
  by_cases hempty : b.properties.entries = []
  · have hproperties : b.properties = ∅ := Dict.eq_of_entries hempty
    rw [propertiesChars_nil hempty, List.append_nil, h.splitName_bare, hproperties]
    simp only [bind, Except.bind, h.ofName_nameChars, hbase]
    rfl
  · rw [propertiesChars_of_ne hempty, h.splitName_bracketed]
    simp only [bind, Except.bind, h.ofName_nameChars, hbase, Bool.false_eq_true, if_false,
      foldlM_splitProperties hempty h.properties]
    rfl

end Block.Readable

namespace Block

/-- Of the readable blocks, those come back whose name space does not begin with a blank. -/
theorem ofBlockstate_blockstate_iff {b : Block} (h : b.Readable) :
    ofBlockstate b.blockstate = .ok b ↔
      ∀ c ∈ b.id.space.toList.head?, Text.isBlank c = false := by
  have hchars : b.blockstateChars = b.baseChars := by
    rw [blockstateChars, h.layers, List.flatMap_nil, List.append_nil]
  rw [ofBlockstate, blockstate, String.toList_ofList, hchars, h.readChars_baseChars,
    Except.ok.injEq, ← Text.trimLeft_eq_self_iff]
  constructor
  · intro hsame
    have hspace := congrArg (fun c => c.id.space.toList) hsame
    simpa only [new, String.toList_ofList] using hspace
  · intro htrim
    obtain ⟨⟨space, base⟩, properties, layers⟩ := b
    cases h.layers
    rw [htrim, String.ofList_toList]
    rfl

def intricate : Block where
  id := ⟨"a\n ", " \"b:,]"⟩
  properties := ⟨[("", .string "a,\"]=[\\'\n"), ("[] \\", .string "1b"),
    ("x", .double 0xFFF0000000000000), ("y", .long (-1))], by unfold Table.Sorted; decide⟩
  layers := []

theorem intricate_readable : intricate.Readable where
  layers := rfl
  space := by decide
  base := by decide
  base_end := by rintro _ ⟨⟩; decide
  properties := by
    have hminus : (Tag.double 0xFFF0000000000000).Printable := .inr (by decide)
    have hempty : Unpadded "".toList := by constructor <;> rintro _ ⟨⟩
    have hbrackets : Unpadded "[] \\".toList := by constructor <;> rintro _ ⟨⟩ <;> decide
    have hx : Unpadded "x".toList := by constructor <;> rintro _ ⟨⟩ <;> decide
    have hy : Unpadded "y".toList := by constructor <;> rintro _ ⟨⟩ <;> decide
    simp only [intricate, List.forall_mem_cons, List.not_mem_nil, false_implies, implies_true,
      and_true]
    exact ⟨⟨hempty, by simp, trivial, trivial⟩,
      ⟨hbrackets, by simp [Snbt.IsQuote], trivial, trivial⟩,
      ⟨hx, by simp [Snbt.IsQuote], trivial, hminus⟩,
      ⟨hy, by simp [Snbt.IsQuote], trivial, trivial⟩⟩

theorem ofBlockstate_blockstate_intricate :
    intricate.Readable ∧ ofBlockstate intricate.blockstate = .ok intricate :=
  ⟨intricate_readable, (ofBlockstate_blockstate_iff intricate_readable).2
    (by rintro _ ⟨⟩; decide)⟩

def indented : Block := new ⟨" mod", "stone"⟩ ∅

/-- The blank is lost. -/
theorem ofBlockstate_blockstate_indented :
    indented.Readable ∧ Text.Unpadded indented.id.base.toList ∧
      ofBlockstate indented.blockstate = .ok (new ⟨"mod", "stone"⟩ ∅) ∧
      ofBlockstate indented.blockstate ≠ .ok indented := by
  have hread : ofBlockstate indented.blockstate = .ok (new ⟨"mod", "stone"⟩ ∅) := by rfl
  have hbase : Text.Unpadded indented.id.base.toList := by
    constructor <;> rintro _ ⟨⟩ <;> decide
  refine ⟨⟨rfl, by decide, by decide, hbase.last, nofun⟩, hbase, hread, ?_⟩
  rw [hread]
  exact fun h => absurd (Except.ok.inj h) (by decide)

end Block

end BlockConvert
