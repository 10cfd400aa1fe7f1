import BlockConvert.Proofs.Snbt.Elements
import BlockConvert.Proofs.Snbt.Reading
import BlockConvert.Proofs.Table.Lookup

set_option autoImplicit false

/-!
# A text is read as the tag that it denotes

Reading accepts just the texts that denote a tag, and gives that tag. In one direction the layouts
that the grammar puts together are read one inside the other; the bound on nesting suffices because
the text of a part is shorter than the text of the whole. In the other direction what a reader takes
off the front of a text is put together again. Reading gives one answer, so no text denotes two
tags.
-/

namespace BlockConvert

namespace Snbt

open Text (Closes)

variable {α β : Type} {text : List Char} {t : Tag} {bound : Nat}

/-! ## What is denoted is read -/

theorem Denotes.opens (h : Denotes text t) : Opens text := by
  have hbracket : ¬Closes '[' := by unfold Closes; decide
  induction h with
  | word hbare _ => exact hbare.opens
  | quoted h => exact h.opens
  | compound _ _ _ _ _ => exact Text.opens_cons (by decide) (by unfold Closes; decide)
  | list _ _ _ _ => exact Text.opens_cons (by decide) hbracket
  | array _ _ _ => exact Text.opens_cons (by decide) hbracket
  | padded hbefore _ _ ih => exact ih.padded hbefore _

theorem Denotes.unmarked (h : Denotes text t) : Unmarked text := by
  induction h with
  | word hbare _ => exact hbare.unmarked
  | quoted h => exact h.unmarked
  | compound _ _ _ _ _ => exact unmarked_cons (by decide)
  | list _ _ _ _ => exact unmarked_cons (by decide)
  | array _ _ _ => exact unmarked_cons (by decide)
  | padded hbefore hafter _ ih => exact ih.padded hbefore hafter

theorem EntryText.opens {e : EntryText} (h : DenotesKey e.keyText e.key) : Opens e.text :=
  h.opens.append _

/-- The bound suffices because brackets make a text longer than its parts. -/
theorem Denotes.yields (h : Denotes text t) (hbound : text.length < bound) :
    Yields (value bound) text (.ok t) := by
  induction h generalizing bound with
  | word hbare h =>
    obtain ⟨bound, rfl⟩ := Nat.exists_eq_succ_of_ne_zero (Nat.ne_zero_of_lt hbound)
    rw [← denotesWord_iff.1 h]
    exact value_word hbare
  | quoted h =>
    obtain ⟨bound, rfl⟩ := Nat.exists_eq_succ_of_ne_zero (Nat.ne_zero_of_lt hbound)
    exact value_quoted h
  | @compound es inner table hinner hkeys hvalues hsorted hlast ih =>
    obtain ⟨bound, rfl⟩ := Nat.exists_eq_succ_of_ne_zero (Nat.ne_zero_of_lt hbound)
    have hentries : ∀ e ∈ es, Yields (entry (value bound)) e.text (.ok e.entry) := fun e he => by
      have hle := hinner.length_le (List.mem_map_of_mem (f := EntryText.text) he)
      simp only [EntryText.text, List.length_append, List.length_cons, List.length_nil]
        at hle hbound
      exact entry_yields (hkeys e he) (ih e he (by omega))
    have htable : Table.ofEntries (es.map EntryText.entry) = table :=
      Table.eq_of_get?_eq (Table.sorted_ofEntries _) hsorted fun key => by
        rw [Table.get?_ofEntries, hlast]
    have hread := value_compound hinner hentries fun e he => EntryText.opens (hkeys e he)
    rw [mapM_ok] at hread
    rwa [← htable]
  | @list parts inner element hinner hparts hkinds hempty ih =>
    obtain ⟨bound, rfl⟩ := Nat.exists_eq_succ_of_ne_zero (Nat.ne_zero_of_lt hbound)
    have hitems : ∀ p ∈ parts, Yields (value bound) p.1 (.ok p.2) := fun p hp => by
      have hle := hinner.length_le (List.mem_map_of_mem (f := Prod.fst) hp)
      simp only [List.length_append, List.length_cons, List.length_nil] at hbound
      exact ih p hp (by omega)
    have hread := value_list hinner hitems (fun p hp => (hparts p hp).opens)
      fun p hp => (hparts p hp).unmarked
    have hlist : listOf (parts.map Prod.snd) = .ok (.list element (parts.map Prod.snd)) :=
      listOf_of_homogeneous
        (TypedList.homogeneous_of_kinds (by simpa using fun u a h => hkinds (a, u) h))
        (by simpa using hempty)
    rw [mapM_ok, Except.bind, hlist] at hread
    exact hread
  | @array parts inner mark t hinner hparts harray ih =>
    obtain ⟨bound, rfl⟩ := Nat.exists_eq_succ_of_ne_zero (Nat.ne_zero_of_lt hbound)
    have hmark := harray.mark_mem
    have hitems : ∀ p ∈ parts, Yields (value bound) p.1 (.ok p.2) := fun p hp => by
      have hle := hinner.length_le (List.mem_map_of_mem (f := Prod.fst) hp)
      simp only [List.length_append, List.length_cons, List.length_nil] at hbound
      exact ih p hp (by omega)
    have hread := value_array (arrayMark?_mark hmark) hinner hitems fun p hp => (hparts p hp).opens
    rw [mapM_ok, Except.bind, (arrayOf_eq_ok hmark).2 harray] at hread
    exact hread
  | padded hbefore hafter _ ih =>
    refine (ih ?_).padded (value_skipsBlank bound) hbefore hafter
    simp only [List.length_append] at hbound
    omega

theorem readChars_of_denotes (h : Denotes text t) : readChars text = .ok t := by
  obtain ⟨r, hr, hread⟩ := h.yields (Nat.lt_succ_self _) [] ends_nil
  have hskip : Text.skip Text.isBlank r = [] := hr
  rw [List.append_nil] at hread
  rw [readChars, hread]
  simp only [Except.map, hskip]

/-! ## What is read is denoted -/

/-- What the parser takes off the front of a text, with the blanks after it, is the text of a part
that gives the result. -/
def Takes (parse : Parser α) (f : β → List Char) (g : β → α) (part : β → Prop) : Prop :=
  ∀ ⦃s x blanks r⦄, AllBlank blanks → parse s = .ok (x, blanks ++ r) →
    ∃ b, s = f b ++ r ∧ g b = x ∧ part b

theorem exists_blanks (cs : List Char) :
    ∃ blanks, AllBlank blanks ∧ cs = blanks ++ Text.skip Text.isBlank cs :=
  ⟨cs.takeWhile Text.isBlank, fun c hc => List.all_eq_true.1 List.all_takeWhile c hc,
    List.takeWhile_append_dropWhile.symm⟩

theorem exists_blanks_cons {cs rest : List Char} {c : Char}
    (h : Text.skip Text.isBlank cs = c :: rest) :
    ∃ blanks, AllBlank blanks ∧ cs = blanks ++ c :: rest := by
  obtain ⟨blanks, hblanks, hcs⟩ := exists_blanks cs
  exact ⟨blanks, hblanks, h ▸ hcs⟩

theorem spelled_of_quoted {quote : Char} {s spelled r : List Char}
    (h : quoted quote s = .ok (spelled, r)) :
    ∃ inner, s = inner ++ quote :: r ∧ SpellsText quote inner spelled := by
  induction s using quoted.induct quote generalizing spelled with
  | case1 => contradiction
  | case2 => contradiction
  | case3 d rest ih =>
    rw [quoted] at h
    obtain ⟨⟨text, r'⟩, hread, heq⟩ := map_eq_ok.1 h
    cases heq
    obtain ⟨inner, rfl, hspells⟩ := ih hread
    by_cases hd : d = 'n'
    · subst hd
      exact ⟨'\\' :: 'n' :: inner, rfl, .line hspells⟩
    · rw [if_neg hd]
      exact ⟨'\\' :: d :: inner, rfl, .escaped hd hspells⟩
  | case4 rest hlast hmore =>
    have hslash : quote ≠ '\\' := fun hc => by
      cases rest with
      | nil => exact hlast hc rfl
      | cons d r => exact hmore d r hc rfl
    rw [quoted_cons hslash, if_pos rfl] at h
    cases h
    exact ⟨[], rfl, .nil⟩
  | case5 c rest hlast hmore hne ih =>
    have hslash : c ≠ '\\' := fun hc => by
      cases rest with
      | nil => exact hlast hc rfl
      | cons d r => exact hmore d r hc rfl
    rw [quoted_cons hslash, if_neg hne] at h
    obtain ⟨⟨text, r'⟩, hread, heq⟩ := map_eq_ok.1 h
    cases heq
    obtain ⟨inner, rfl, hspells⟩ := ih hread
    exact ⟨c :: inner, rfl, .plain hne hslash hspells⟩

theorem denotesQuoted_of_quoted {c : Char} {cs spelled r : List Char} (hquote : isQuote c = true)
    (h : quoted c cs = .ok (spelled, r)) :
    ∃ taken, c :: cs = taken ++ r ∧ DenotesQuoted taken (String.ofList spelled) := by
  obtain ⟨inner, rfl, hspells⟩ := spelled_of_quoted h
  have hmark : IsQuote c := by simpa [isQuote, IsQuote] using hquote
  exact ⟨c :: (inner ++ [c]), by simp, .mk hmark hspells⟩

theorem bareWord_of_bare {s word r : List Char} (h : bare s = .ok (word, r)) :
    s = word ++ r ∧ IsBareWord word := by
  cases s with
  | nil => contradiction
  | cons c rest =>
    rw [bare] at h
    split at h
    · rename_i hc
      cases h
      refine ⟨by rw [List.cons_append, List.takeWhile_append_dropWhile], List.cons_ne_nil _ _, ?_⟩
      exact List.forall_mem_cons.2 ⟨hc, List.all_eq_true.1 List.all_takeWhile⟩
    · contradiction

theorem denotesKey_of_key {s r : List Char} {k : String} (h : key s = .ok (k, r)) :
    ∃ taken, s = taken ++ r ∧ DenotesKey taken k := by
  obtain ⟨⟨text, r'⟩, hread, heq⟩ := map_eq_ok.1 h
  cases heq
  rw [keyChars] at hread
  split at hread
  · contradiction
  rename_i c rest hskip
  obtain ⟨blanks, hblanks, rfl⟩ := exists_blanks_cons hskip
  split at hread
  · rename_i hquote
    obtain ⟨taken, htaken, hdenotes⟩ := denotesQuoted_of_quoted hquote hread
    refine ⟨blanks ++ taken ++ [], ?_, .padded hblanks Text.allBlank_nil (.quoted hdenotes)⟩
    rw [htaken, List.append_nil, List.append_assoc]
  · obtain ⟨htaken, hbare⟩ := bareWord_of_bare hread
    refine ⟨blanks ++ text ++ [], ?_, .padded hblanks Text.allBlank_nil (.bare hbare)⟩
    rw [htaken, List.append_nil, List.append_assoc]

def IsPart (p : List Char × Tag) : Prop := Denotes p.1 p.2

def IsEntry (e : EntryText) : Prop := DenotesKey e.keyText e.key ∧ Denotes e.valueText e.value

/-- A reader that takes texts of values takes the blanks after them too. -/
theorem takes_of_denotes {read : Parser Tag}
    (h : ∀ {s t r}, read s = .ok (t, r) → ∃ taken, s = taken ++ r ∧ Denotes taken t) :
    Takes read Prod.fst Prod.snd IsPart := by
  intro s t blanks r hblanks hread
  obtain ⟨taken, rfl, hdenotes⟩ := h hread
  exact ⟨([] ++ taken ++ blanks, t), by simp, rfl, .padded Text.allBlank_nil hblanks hdenotes⟩

theorem expect_eq_ok {s rest : List Char} {c : Char} (h : expect c s = .ok rest) :
    ∃ blanks, AllBlank blanks ∧ s = blanks ++ c :: rest := by
  rw [expect] at h
  split at h
  · contradiction
  rename_i d rest' hskip
  split at h
  · rename_i hd
    cases h
    exact hd ▸ exists_blanks_cons hskip
  · contradiction

theorem takes_entry {read : Parser Tag} (h : Takes read Prod.fst Prod.snd IsPart) :
    Takes (entry read) EntryText.text EntryText.entry IsEntry := by
  intro s x blanks r hblanks hread
  simp only [entry, bind_eq_ok] at hread
  obtain ⟨⟨k, afterKey⟩, hkey, afterColon, hcolon, ⟨v, afterValue⟩, hvalue, heq⟩ := hread
  cases heq
  obtain ⟨keyText, rfl, hdenotesKey⟩ := denotesKey_of_key hkey
  obtain ⟨beforeColon, hbefore, rfl⟩ := expect_eq_ok hcolon
  obtain ⟨⟨valueText, t⟩, rfl, rfl, hpart⟩ := h hblanks hvalue
  refine ⟨⟨[] ++ keyText ++ beforeColon, k, valueText, t⟩, by simp [EntryText.text], rfl, ?_, hpart⟩
  exact .padded Text.allBlank_nil hbefore hdenotesKey

section Items

variable {f : β → List Char} {g : β → α} {part : β → Prop} {parse : Parser α} {close : Char}
  {s r : List Char} {xs : List α}

/-- The induction is on the bound, which counts the items. -/
theorem parts_of_items (h : Takes parse f g part)
    (hread : items parse close bound s = .ok (xs, r)) :
    ∃ bs : List β, bs ≠ [] ∧ s = Text.joinWith ',' (bs.map f) ++ close :: r ∧ bs.map g = xs ∧
      ∀ b ∈ bs, part b := by
  induction bound generalizing s xs with
  | zero => contradiction
  | succ bound ih =>
    rw [items] at hread
    obtain ⟨⟨x, afterItem⟩, hitem, hread⟩ := bind_eq_ok.1 hread
    dsimp only at hread
    split at hread
    · contradiction
    rename_i c rest hskip
    obtain ⟨blanks, hblanks, rfl⟩ := exists_blanks_cons hskip
    obtain ⟨b, rfl, rfl, hb⟩ := h hblanks hitem
    split at hread
    · rename_i hcomma
      obtain ⟨⟨more, r'⟩, hmore, heq⟩ := bind_eq_ok.1 hread
      cases heq
      obtain ⟨bs, hne, rfl, rfl, hbs⟩ := ih hmore
      obtain ⟨next, bs, rfl⟩ := List.exists_cons_of_ne_nil hne
      refine ⟨b :: next :: bs, by simp, ?_, rfl, List.forall_mem_cons.2 ⟨hb, hbs⟩⟩
      simp [Text.joinWith, hcomma]
    split at hread
    · rename_i hclose
      cases hread
      exact ⟨[b], by simp, by simp [Text.joinWith, hclose], rfl, by simpa using hb⟩
    · contradiction

theorem parts_of_body (h : Takes parse f g part) (hread : body parse close s = .ok (xs, r)) :
    ∃ (bs : List β) (inner : List Char), Encloses (bs.map f) inner ∧ s = inner ++ close :: r ∧
      bs.map g = xs ∧ ∀ b ∈ bs, part b := by
  have hitems : ∀ {bound}, items parse close bound s = .ok (xs, r) →
      ∃ (bs : List β) (inner : List Char), Encloses (bs.map f) inner ∧ s = inner ++ close :: r ∧
        bs.map g = xs ∧ ∀ b ∈ bs, part b := fun hread => by
    obtain ⟨bs, hne, hs, hxs, hbs⟩ := parts_of_items h hread
    exact ⟨bs, _, .parts (by simpa using hne), hs, hxs, hbs⟩
  rw [body] at hread
  split at hread
  · exact hitems hread
  rename_i c rest hskip
  split at hread
  · rename_i hclose
    cases hread
    obtain ⟨blanks, hblanks, rfl⟩ := exists_blanks_cons hskip
    exact ⟨[], blanks, .blank hblanks, by rw [hclose], rfl, by simp⟩
  · exact hitems hread

end Items

theorem arrayMark?_eq_some {s rest : List Char} {array : Kind}
    (h : arrayMark? s = some (array, rest)) :
    ∃ mark, mark ∈ ['B', 'I', 'L'] ∧ s = mark :: ';' :: rest ∧ array = markKind mark := by
  unfold arrayMark? at h
  split at h <;> cases h
  · exact ⟨'B', by decide, rfl, rfl⟩
  · exact ⟨'I', by decide, rfl, rfl⟩
  · exact ⟨'L', by decide, rfl, rfl⟩

theorem denotes_of_listOrArray {read : Parser Tag} {s r : List Char}
    (h : Takes read Prod.fst Prod.snd IsPart) (hread : listOrArray read s = .ok (t, r)) :
    ∃ taken, '[' :: s = taken ++ r ∧ Denotes taken t := by
  rw [listOrArray] at hread
  split at hread
  · rename_i array rest hmark
    obtain ⟨mark, hmem, rfl, rfl⟩ := arrayMark?_eq_some hmark
    obtain ⟨⟨elements, r'⟩, hbody, hread⟩ := bind_eq_ok.1 hread
    obtain ⟨u, harray, heq⟩ := bind_eq_ok.1 hread
    cases heq
    obtain ⟨parts, inner, hinner, rfl, rfl, hparts⟩ := parts_of_body h hbody
    exact ⟨'[' :: mark :: ';' :: (inner ++ [']']), by simp,
      .array hinner hparts ((arrayOf_eq_ok hmem).1 harray)⟩
  · obtain ⟨⟨elements, r'⟩, hbody, hread⟩ := bind_eq_ok.1 hread
    obtain ⟨u, hlist, heq⟩ := bind_eq_ok.1 hread
    cases heq
    obtain ⟨parts, inner, hinner, rfl, rfl, hparts⟩ := parts_of_body h hbody
    obtain ⟨element, rfl, ⟨hkinds, -⟩, hempty⟩ := listOf_eq_ok hlist
    refine ⟨'[' :: (inner ++ [']']), by simp, .list hinner hparts (fun p hp => ?_) ?_⟩
    · exact (hkinds p.2 (List.mem_map_of_mem hp)).symm
    · rintro rfl
      exact hempty rfl

theorem denotes_of_value {s r : List Char} (h : value bound s = .ok (t, r)) :
    ∃ taken, s = taken ++ r ∧ Denotes taken t := by
  induction bound generalizing s t r with
  | zero => contradiction
  | succ bound ih =>
    have hpart : Takes (value bound) Prod.fst Prod.snd IsPart := takes_of_denotes ih
    rw [value] at h
    split at h
    · contradiction
    rename_i c rest hskip
    obtain ⟨blanks, hblanks, rfl⟩ := exists_blanks_cons hskip
    -- the blanks in front become padding
    suffices hcore : ∃ taken, c :: rest = taken ++ r ∧ Denotes taken t by
      obtain ⟨taken, htaken, hdenotes⟩ := hcore
      refine ⟨blanks ++ taken ++ [], ?_, .padded hblanks Text.allBlank_nil hdenotes⟩
      rw [htaken, List.append_nil, List.append_assoc]
    split at h
    · rename_i hbrace
      obtain ⟨⟨entries, r'⟩, hbody, heq⟩ := map_eq_ok.1 h
      cases heq
      obtain ⟨es, inner, hinner, rfl, rfl, hes⟩ := parts_of_body (takes_entry hpart) hbody
      refine ⟨'\x7b' :: (inner ++ ['\x7d']), by simp [hbrace], .compound hinner
        (fun e he => (hes e he).1) (fun e he => (hes e he).2) (Table.sorted_ofEntries _) ?_⟩
      exact fun key => Table.get?_ofEntries _ key
    split at h
    · rename_i hbracket
      rw [hbracket]
      exact denotes_of_listOrArray hpart h
    split at h
    · rename_i hquote
      obtain ⟨⟨spelled, r'⟩, hread, heq⟩ := map_eq_ok.1 h
      cases heq
      obtain ⟨taken, htaken, hdenotes⟩ := denotesQuoted_of_quoted hquote hread
      exact ⟨taken, htaken, .quoted hdenotes⟩
    · obtain ⟨⟨word, r'⟩, hread, heq⟩ := map_eq_ok.1 h
      cases heq
      obtain ⟨htaken, hbare⟩ := bareWord_of_bare hread
      exact ⟨word, htaken, .word hbare (denotesWord_classify word)⟩

theorem denotes_of_readChars (h : readChars text = .ok t) : Denotes text t := by
  rw [readChars] at h
  split at h
  · contradiction
  rename_i u rest hread
  split at h
  · rename_i hskip
    cases h
    obtain ⟨taken, rfl, hdenotes⟩ := denotes_of_value hread
    obtain ⟨blanks, hblanks, hrest⟩ := exists_blanks rest
    rw [hskip, List.append_nil] at hrest
    have hpadded : Denotes ([] ++ taken ++ blanks) t :=
      .padded Text.allBlank_nil hblanks hdenotes
    rwa [List.nil_append, ← hrest] at hpadded
  · contradiction

theorem readChars_eq_ok_iff : readChars text = .ok t ↔ Denotes text t :=
  ⟨denotes_of_readChars, readChars_of_denotes⟩

end Snbt

namespace Tag

open Snbt (Denotes)

/-- Reading accepts the texts of the grammar and no others. No text denotes two tags. -/
theorem ofSnbt_eq_ok_iff (text : String) :
    (∀ t, ofSnbt text = .ok t ↔ Denotes text.toList t) ∧
      ∀ t u, Denotes text.toList t → Denotes text.toList u → t = u := by
  have hread : ∀ t, ofSnbt text = .ok t ↔ Denotes text.toList t := fun t =>
    Snbt.readChars_eq_ok_iff
  refine ⟨hread, fun t u ht hu => ?_⟩
  exact Except.ok.inj (((hread t).2 ht).symm.trans ((hread u).2 hu))

end Tag

end BlockConvert
