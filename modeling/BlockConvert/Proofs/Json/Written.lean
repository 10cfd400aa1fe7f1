import BlockConvert.Json.Quoted
import BlockConvert.Proofs.Json.Grammar

set_option autoImplicit false

/-!
# Written JSON denotes what was written

A text in quotes denotes the text, whatever characters it has, and arrays and objects of written
parts denote the values of their parts.
-/

namespace BlockConvert.Json

variable {c : Char} {j : Json}

theorem hexPair_eq : ∀ n < 0x20, hexPair n = [Nat.digitChar (n / 16), Nat.digitChar (n % 16)] := by
  decide

theorem hexValue?_digitChar : ∀ n < 16, hexValue? (Nat.digitChar n) = some n := by decide

theorem spellsUnit_hexPair {n : Nat} (h : n < 0x20) : SpellsUnit ('0' :: '0' :: hexPair n) n := by
  have hzero : hexValue? '0' = some 0 := rfl
  have hunit := SpellsUnit.mk hzero hzero (hexValue?_digitChar (n / 16) (by omega))
    (hexValue?_digitChar (n % 16) (by omega))
  have hvalue : 0 * 4096 + 0 * 256 + n / 16 * 16 + n % 16 = n := by omega
  rwa [hvalue, ← hexPair_eq n h] at hunit

theorem spellsChar_escape (c : Char) : SpellsChar (escape c) c := by
  unfold escape
  split
  · rename_i h
    refine .letter ?_
    rcases h with rfl | rfl <;> rfl
  split
  · rename_i h
    exact h ▸ .letter rfl
  split
  · rename_i h
    exact h ▸ .letter rfl
  split
  · rename_i h
    exact h ▸ .letter rfl
  split
  · rename_i h
    exact h ▸ .letter rfl
  split
  · rename_i h
    exact h ▸ .letter rfl
  split
  · rename_i hcontrol
    have hunit := SpellsChar.unit (spellsUnit_hexPair hcontrol) (.inl (by omega))
    rwa [Char.ofNat_toNat] at hunit
  · rename_i hquote _ _ _ _ _ hcontrol
    rw [not_or] at hquote
    exact .plain (Nat.le_of_not_lt hcontrol) hquote.1 hquote.2

theorem spellsText_escape (cs : List Char) : SpellsText (cs.flatMap escape) cs := by
  induction cs with
  | nil => exact .nil
  | cons c cs ih => exact .cons (spellsChar_escape c) ih

theorem denotes_quoted (cs : List Char) : Denotes (quoted cs) (.text (some (String.ofList cs))) :=
  .text (spellsText_escape cs)

theorem denotesName_quoted (cs : List Char) : DenotesName (quoted cs) cs :=
  .mk Text.allBlank_nil Text.allBlank_nil (spellsText_escape cs)

theorem denotes_array (parts : List (List Char × Json)) (h : ∀ p ∈ parts, Denotes p.1 p.2) :
    Denotes ('[' :: (Text.joinWith ',' (parts.map Prod.fst) ++ [']']))
      (.array (parts.map Prod.snd)) :=
  .array (Text.encloses_joinWith _) h

def MemberText.quoted (name valueText : List Char) (j : Json) : MemberText :=
  ⟨Json.quoted name, name, valueText, j⟩

theorem denotes_object {ms : List MemberText} (hnames : ∀ m ∈ ms, m.nameText = Json.quoted m.name)
    (hvalues : ∀ m ∈ ms, Denotes m.valueText m.value) :
    Denotes ('\x7b' :: (Text.joinWith ',' (ms.map MemberText.text) ++ ['\x7d']))
      (.object (ms.map MemberText.member)) :=
  .object (Text.encloses_joinWith _) (fun m hm => hnames m hm ▸ denotesName_quoted m.name) hvalues

end BlockConvert.Json
