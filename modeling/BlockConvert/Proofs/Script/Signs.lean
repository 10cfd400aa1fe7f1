import BlockConvert.Proofs.Conversion.Moving
import BlockConvert.Script.Builtin
import Mathlib.Data.List.Forall2

set_option autoImplicit false

/-!
# Texts of signs

A sign has one text with line breaks in one format, and four lines in the other. The scripts between
them are inverse to each other, up to lines that are cut off or filled up, when what one of them
writes is painted and the other one reads it from the tree.
-/

namespace BlockConvert

namespace Script

variable {t : Tag} {child : Option Tag} {s line key : String} {keys lines : List String}

/-! ## What counts as a text -/

/-- A child counts as its text, or as the empty text if it is missing or of another kind. -/
inductive CountsAs : Option Tag → String → Prop
  | text (s : String) : CountsAs (some (.string s)) s
  | missing : CountsAs none ""
  | mistyped {t : Tag} (h : t.kind ≠ .string) : CountsAs (some t) ""

theorem countsAs_iff : CountsAs child s ↔ (child.bind Tag.text?).getD "" = s := by
  constructor
  · rintro (s | _ | ⟨h⟩)
    · rfl
    · rfl
    · rename_i t
      cases t <;> first | rfl | exact absurd rfl h
  · rintro rfl
    cases child with
    | none => exact .missing
    | some t => cases t <;> first | exact .text _ | exact .mistyped nofun

theorem textAt_eq (h : CountsAs (t.child? key) s) : textAt t key = s := countsAs_iff.1 h

def sharedChild? (t : Tag) (key : String) : Option Tag :=
  (t.child? sharedKey).bind (·.child? key)

theorem sharedChild?_eq (t : Tag) (key : String) :
    sharedChild? t key = (Paint.openChild (t.child? sharedKey) .compound).child? key := by
  rw [sharedChild?]
  cases t.child? sharedKey with
  | none => rfl
  | some u => cases u <;> rfl

def sharedText (t : Tag) (key : String) : String :=
  ((t.child? sharedKey).map fun u => textAt u key).getD ""

theorem sharedText_eq (h : CountsAs (sharedChild? t key) s) : sharedText t key = s := by
  rw [sharedChild?, countsAs_iff] at h
  rw [← h, sharedText]
  cases t.child? sharedKey <;> rfl

theorem map_sharedText (h : List.Forall₂ (fun key line => CountsAs (sharedChild? t key) line)
    keys lines) : keys.map (sharedText t) = lines := by
  induction h with
  | nil => rfl
  | cons hline _ ih => rw [List.map_cons, sharedText_eq hline, ih]

/-! ## Four lines -/

theorem take_padded {α : Type} (xs : List α) (blank : α) (n : Nat) :
    (xs ++ List.replicate n blank).take n = (List.range n).map fun i => xs[i]?.getD blank := by
  refine List.ext_getElem (by simp) fun i hi _ => ?_
  rw [List.getElem_take, List.getElem_map, List.getElem_range, List.getElem_append]
  split
  · rename_i hlt
    rw [List.getElem?_eq_getElem hlt, Option.getD_some]
  · rename_i hge
    rw [List.getElem?_eq_none (by omega), List.getElem_replicate, Option.getD_none]

theorem length_fourLines (s : String) : (fourLines s).length = 4 := by
  simp [fourLines]

theorem fourLines_eq (s : String) : (fourLines s).map String.toList =
    (List.range 4).map fun i => (Text.splitAll '\n' s.toList)[i]?.getD [] := by
  rw [fourLines, take_padded, List.map_map]
  refine List.map_congr_left fun i _ => ?_
  rw [Function.comp_apply, List.getElem?_map]
  cases (Text.splitAll '\n' s.toList)[i]? with
  | none => rfl
  | some piece => exact String.toList_ofList

theorem break_not_mem_fourLines (h : line ∈ fourLines s) : '\n' ∉ line.toList := by
  rw [fourLines] at h
  rcases List.mem_append.1 (List.mem_of_mem_take h) with h | h
  · obtain ⟨piece, hpiece, rfl⟩ := List.mem_map.1 h
    rw [String.toList_ofList]
    exact Text.not_mem_of_mem_splitAll hpiece
  · rw [List.eq_of_mem_replicate h]
    exact List.not_mem_nil

def joined (lines : List String) : String :=
  String.ofList (Text.joinWith '\n' (lines.map String.toList))

theorem splitAll_joined (hne : lines ≠ []) (h : ∀ line ∈ lines, '\n' ∉ line.toList) :
    Text.splitAll '\n' (joined lines).toList = lines.map String.toList := by
  rw [joined, String.toList_ofList]
  exact Text.splitAll_joinWith (by simpa using hne) (List.forall_mem_map.2 h)

theorem fourLines_joined (hlength : lines.length = 4) (h : ∀ line ∈ lines, '\n' ∉ line.toList) :
    fourLines (joined lines) = lines := by
  have hne : lines ≠ [] := List.ne_nil_of_length_pos (by omega)
  have hid : String.ofList ∘ String.toList = id := funext fun _ => String.ofList_toList
  rw [fourLines, splitAll_joined hne h, List.map_map, hid, List.map_id]
  exact List.take_left' hlength

/-! ## What the scripts write and read -/

def entries (keys lines : List String) : List (String × Tag) :=
  (keys.zip lines).map fun (key, line) => (key, .string line)

theorem keys_entries (hlength : keys.length = lines.length) :
    (entries keys lines).map Prod.fst = keys := by
  rw [entries, List.map_map]
  exact List.map_fst_zip (Nat.le_of_eq hlength)

theorem call_signToUniversal (h : CountsAs (t.child? "Text") s) :
    Scripts.builtin.call "bedrock_sign_2u" [.tag t] =
      .ok [.edits (Edit.entriesAt shared (entries lineKeys (fourLines s)))] := by
  have hget : Scripts.builtin.get? "bedrock_sign_2u" = some signToUniversal.2 := by
    rw [Scripts.builtin, Dict.get?, Dict.ofList, Table.get?_ofEntries]
    rfl
  rw [Scripts.call, hget, ← textAt_eq h, Edit.entriesAt, entries, List.map_map]
  rfl

theorem call_signFromUniversal
    (h : List.Forall₂ (fun key line => CountsAs (sharedChild? t key) line) lineKeys lines) :
    Scripts.builtin.call "bedrock_sign_fu" [.tag t] =
      .ok [.edits (Edit.entriesAt [] [("Text", .string (joined lines))])] := by
  have hget : Scripts.builtin.get? "bedrock_sign_fu" = some signFromUniversal.2 := by
    rw [Scripts.builtin, Dict.get?, Dict.ofList, Table.get?_ofEntries]
    rfl
  rw [Scripts.call, hget, ← map_sharedText h]
  rfl

variable {template : Option Tag}

/-- The text that is painted is read. -/
theorem countsAs_build (h : ∀ u ∈ template, u.kind = .compound) (key s : String) :
    CountsAs ((Paint.build "" .compound (Edit.entriesAt [] [(key, .string s)])
      template).tree.tag.child? key) s := by
  have hkeys : ([(key, Tag.string s)].map Prod.fst).Nodup := List.nodup_singleton key
  rw [Paint.build_entriesAt, Paint.child?_paint_entriesAt (Paint.kind_getD h) hkeys
    (List.mem_singleton_self _)]
  exact .text s

/-- The lines that are painted in the shared compound are read. -/
theorem countsAs_build_shared (h : ∀ u ∈ template, u.kind = .compound) (hkeys : keys.Nodup)
    (hlength : keys.length = lines.length) :
    List.Forall₂ (fun key line => CountsAs (sharedChild? (Paint.build "" .compound
        (Edit.entriesAt shared (entries keys lines)) template).tree.tag key) line) keys lines := by
  refine List.forall₂_iff_zip.2 ⟨hlength, fun {key line} hline => ?_⟩
  have hmem : (key, .string line) ∈ entries keys lines := List.mem_map.2 ⟨_, hline, rfl⟩
  have hnodup : ((entries keys lines).map Prod.fst).Nodup := (keys_entries hlength).symm ▸ hkeys
  rw [sharedChild?_eq, Paint.build_entriesAt, shared, Edit.entriesAt_beneath,
    Paint.openChild_paint (Paint.kind_getD h),
    Paint.child?_paint_entriesAt (Paint.kind_openChild _ _) hnodup hmem]
  exact .text line

/-- A text that is cut in four lines and painted is read as its first four lines, filled up with
empty ones, and four lines that are put together and painted are read as they were. -/
theorem sign_texts_return (t : Tag) (h : ∀ u ∈ template, u.kind = .compound) :
    (∀ s, CountsAs (t.child? "Text") s → ∃ edits text,
      Scripts.builtin.call "bedrock_sign_2u" [.tag t] = .ok [.edits edits] ∧
        Scripts.builtin.call "bedrock_sign_fu"
            [.tag (Paint.build "" .compound edits template).tree.tag] =
          .ok [.edits [.new [] (.key "Text") (.string text)]] ∧
        Text.splitAll '\n' text.toList =
          (List.range 4).map fun i => (Text.splitAll '\n' s.toList)[i]?.getD []) ∧
      ∀ lines, List.Forall₂ (fun key line => CountsAs (sharedChild? t key) line) lineKeys lines →
        (∀ line ∈ lines, '\n' ∉ line.toList) → ∃ edits,
        Scripts.builtin.call "bedrock_sign_fu" [.tag t] = .ok [.edits edits] ∧
          Scripts.builtin.call "bedrock_sign_2u"
              [.tag (Paint.build "" .compound edits template).tree.tag] =
            .ok [.edits ((lineKeys.zip lines).map fun (key, line) =>
              .new shared (.key key) (.string line))] := by
  refine ⟨fun s hs => ?_, fun lines hlines hbreak => ?_⟩
  · have hkeys : lineKeys.Nodup := by decide
    have hlength : lineKeys.length = (fourLines s).length := (length_fourLines s).symm
    have hne : fourLines s ≠ [] := List.ne_nil_of_length_pos (by rw [length_fourLines]; omega)
    refine ⟨_, joined (fourLines s), call_signToUniversal hs,
      call_signFromUniversal (countsAs_build_shared h hkeys hlength), ?_⟩
    rw [splitAll_joined hne fun line hline => break_not_mem_fourLines hline, fourLines_eq]
  · have hlength : lines.length = 4 := hlines.length_eq.symm
    refine ⟨_, call_signFromUniversal hlines, ?_⟩
    rw [call_signToUniversal (countsAs_build h "Text" (joined lines)),
      fourLines_joined hlength hbreak, Edit.entriesAt, entries, List.map_map]
    rfl

/-- A sign in both formats at once, with a number for its third line. -/
def sampleSign : Tag :=
  .compound [("Text", .string "one\ntwo"),
    (sharedKey, .compound [("Text1", .string "one"), ("Text3", .int 3)])]

theorem sign_texts_return_sample :
    (∃ edits text,
      Scripts.builtin.call "bedrock_sign_2u" [.tag sampleSign] = .ok [.edits edits] ∧
        Scripts.builtin.call "bedrock_sign_fu"
            [.tag (Paint.build "" .compound edits (some sampleSign)).tree.tag] =
          .ok [.edits [.new [] (.key "Text") (.string text)]] ∧
        Text.splitAll '\n' text.toList = [['o', 'n', 'e'], ['t', 'w', 'o'], [], []]) ∧
      ∃ edits, Scripts.builtin.call "bedrock_sign_fu" [.tag sampleSign] = .ok [.edits edits] ∧
        Scripts.builtin.call "bedrock_sign_2u"
            [.tag (Paint.build "" .compound edits (some sampleSign)).tree.tag] =
          .ok [.edits ((lineKeys.zip ["one", "", "", ""]).map fun (key, line) =>
            .new shared (.key key) (.string line))] := by
  have htemplate : ∀ u ∈ some sampleSign, u.kind = .compound := fun u hu => by
    cases hu
    rfl
  have hnumber : CountsAs (some (.int 3)) "" := .mistyped nofun
  have hlines : List.Forall₂ (fun key line => CountsAs (sharedChild? sampleSign key) line) lineKeys
      ["one", "", "", ""] :=
    .cons (.text "one") (.cons .missing (.cons hnumber (.cons .missing .nil)))
  have hsample := sign_texts_return sampleSign htemplate
  exact ⟨hsample.1 "one\ntwo" (.text "one\ntwo"), hsample.2 _ hlines (by decide)⟩

end Script

end BlockConvert
