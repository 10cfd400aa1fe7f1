import BlockConvert.Proofs.Snbt.Classification
import BlockConvert.Snbt.Parser

set_option autoImplicit false

/-!
# Reading what is laid out

The layouts of values are read one by one: bare words, texts in quotes, keys, entries, and items
with commas between them. Each statement holds whatever comes after the layout, only that the next
character must not go on with a bare word. That is so at the end of a text, before a blank, a comma,
a colon and a closing bracket, and so before all that may come after a value. A layout may also end
in a fault: a list is refused where its elements are of two kinds.
-/

namespace BlockConvert.Snbt

open Text (Closes)

variable {α β : Type} {parse : Parser α} {text rest cs before after : List Char} {x : α}
  {c close : Char} {outcome : Except Fault α}

/-- The text that is left does not go on with a bare word. -/
def Ends (rest : List Char) : Prop := ∀ c ∈ rest.head?, isBare c = false

/-- Before any end of a word the text has the given outcome. What is left is what comes after it,
apart from blanks in front. -/
def Yields (parse : Parser α) (text : List Char) (outcome : Except Fault α) : Prop :=
  ∀ rest, Ends rest →
    ∃ r, Text.skip Text.isBlank r = Text.skip Text.isBlank rest ∧
      parse (text ++ rest) = outcome.map fun x => (x, r)

theorem ends_nil : Ends [] := fun _ h => by cases h

theorem ends_cons (h : isBare c = false) : Ends (c :: rest) := by
  intro d hd
  rwa [← Option.some.inj hd]

theorem not_isBare_of_closes (h : Closes c) : isBare c = false := by
  rcases h with rfl | rfl <;> decide

theorem not_isBlank_of_closes (h : Closes c) : Text.isBlank c = false := by
  rcases h with rfl | rfl <;> decide

/-! ## Blanks -/

theorem not_isBare_of_isBlank (h : Text.isBlank c = true) : isBare c = false := by
  cases hbare : isBare c with
  | false => rfl
  | true => rw [not_isBlank_of_isBare hbare] at h; contradiction

theorem Ends.append (h : AllBlank after) (hrest : Ends rest) : Ends (after ++ rest) :=
  Text.forall_head_append (fun _ => not_isBare_of_isBlank) h hrest

def SkipsBlank (parse : Parser α) : Prop := ∀ cs, parse cs = parse (Text.skip Text.isBlank cs)

theorem key_skipsBlank : SkipsBlank key := fun cs => by
  simp only [key, keyChars, Text.skip_skip]

theorem value_skipsBlank (bound : Nat) : SkipsBlank (value bound) := fun cs => by
  cases bound with
  | zero => rfl
  | succ bound => simp only [value, Text.skip_skip]

theorem Yields.padded (hskips : SkipsBlank parse) (hbefore : AllBlank before)
    (hafter : AllBlank after) (h : Yields parse text outcome) :
    Yields parse (before ++ text ++ after) outcome := by
  intro rest hrest
  obtain ⟨r, hr, hparse⟩ := h (after ++ rest) (hrest.append hafter)
  refine ⟨r, hr.trans (Text.skip_append hafter rest), ?_⟩
  rw [List.append_assoc, List.append_assoc, hskips, Text.skip_append hbefore, ← hskips, hparse]

theorem expect_of_skipBlank (h : Text.skip Text.isBlank cs = c :: rest) :
    expect c cs = .ok rest := by
  rw [expect, h]
  exact if_pos rfl

/-! ## First characters -/

abbrev Opens : List Char → Prop := Text.Opens Text.isBlank

/-- With no semicolon after it, the text does not start like the mark of an array. -/
def Unmarked (text : List Char) : Prop :=
  ∀ rest, rest.head? ≠ some ';' → arrayMark? (text ++ rest) = none

theorem arrayMark?_eq_none (h : c ∉ ['B', 'I', 'L']) : arrayMark? (c :: cs) = none := by
  unfold arrayMark?
  split <;> simp_all

theorem arrayMark?_of_second {d : Char} (h : d ≠ ';') : arrayMark? (c :: d :: cs) = none := by
  unfold arrayMark?
  split <;> simp_all

theorem unmarked_cons (h : c ∉ ['B', 'I', 'L']) : Unmarked (c :: cs) :=
  fun _ _ => arrayMark?_eq_none h

theorem not_mark_of_isBlank (h : Text.isBlank c = true) : c ∉ ['B', 'I', 'L'] := by
  intro hmem
  simp only [List.mem_cons, List.not_mem_nil, or_false] at hmem
  rcases hmem with rfl | rfl | rfl <;> exact absurd h (by decide)

theorem Unmarked.padded (hbefore : AllBlank before) (hafter : AllBlank after) (h : Unmarked text) :
    Unmarked (before ++ text ++ after) := by
  intro rest hrest
  cases before with
  | nil =>
    rw [List.nil_append, List.append_assoc]
    refine h (after ++ rest) ?_
    cases after with
    | nil => exact hrest
    | cons c cs =>
      intro hhead
      have hblank := hafter c (by simp)
      rw [Option.some.inj hhead] at hblank
      exact absurd hblank (by decide)
  | cons c cs => exact arrayMark?_eq_none (not_mark_of_isBlank (hbefore c (by simp)))

theorem IsBareWord.opens (h : IsBareWord text) : Opens text := by
  obtain ⟨hne, hbare⟩ := h
  obtain ⟨c, cs, rfl⟩ := List.exists_cons_of_ne_nil hne
  have hc := hbare c (by simp)
  refine Text.opens_cons (not_isBlank_of_isBare hc) fun hcloses => ?_
  rw [not_isBare_of_closes hcloses] at hc
  contradiction

theorem IsBareWord.unmarked (h : IsBareWord text) : Unmarked text := by
  intro rest hrest
  obtain ⟨hne, hbare⟩ := h
  match text, hne with
  | [c], _ =>
    cases rest with
    | nil =>
      unfold arrayMark?
      split <;> simp_all
    | cons d more => exact arrayMark?_of_second fun hd => hrest (by rw [hd]; rfl)
  | c :: d :: cs, _ =>
    refine arrayMark?_of_second ?_
    rintro rfl
    exact absurd (hbare ';' (by simp)) (by decide)

theorem IsQuote.not_isBlank (h : IsQuote c) : Text.isBlank c = false := by
  rcases h with rfl | rfl <;> decide

theorem IsQuote.isQuote (h : IsQuote c) : isQuote c = true := by
  rcases h with rfl | rfl <;> decide

theorem DenotesQuoted.opens {s : String} (h : DenotesQuoted text s) : Opens text := by
  cases h with
  | mk hquote _ =>
    refine Text.opens_cons hquote.not_isBlank ?_
    rcases hquote with rfl | rfl <;> unfold Closes <;> decide

theorem DenotesQuoted.unmarked {s : String} (h : DenotesQuoted text s) : Unmarked text := by
  cases h with
  | mk hquote _ => exact unmarked_cons (by rcases hquote with rfl | rfl <;> decide)

theorem DenotesKey.opens {k : String} (h : DenotesKey text k) : Opens text := by
  induction h with
  | bare h => exact h.opens
  | quoted h => exact h.opens
  | padded hbefore _ _ ih => exact ih.padded hbefore _

/-! ## Quoted texts, bare words and keys -/

theorem quoted_cons {quote : Char} (hslash : c ≠ '\\') (rest : List Char) :
    quoted quote (c :: rest) =
      if c = quote then .ok ([], rest)
      else (quoted quote rest).map fun (text, r) => (c :: text, r) := by
  rw [quoted]
  · exact fun h _ => hslash h
  · exact fun _ _ h _ => hslash h

theorem quoted_spelled {quote : Char} {inner spelled : List Char} (hquote : IsQuote quote)
    (h : SpellsText quote inner spelled) (rest : List Char) :
    quoted quote (inner ++ quote :: rest) = .ok (spelled, rest) := by
  induction h with
  | nil =>
    rw [List.nil_append, quoted_cons (by rcases hquote with rfl | rfl <;> decide)]
    exact if_pos rfl
  | plain hne hslash _ ih =>
    rw [List.cons_append, quoted_cons hslash, if_neg hne, ih]
    rfl
  | line _ ih =>
    rw [List.cons_append, List.cons_append, quoted, ih]
    rfl
  | escaped hn _ ih =>
    rw [List.cons_append, List.cons_append, quoted, ih, if_neg hn]
    rfl

theorem DenotesQuoted.quoted_eq {s : String} (h : DenotesQuoted text s) :
    ∃ c cs, text = c :: cs ∧ IsQuote c ∧
      ∀ rest, quoted c (cs ++ rest) = .ok (s.toList, rest) := by
  cases h with
  | @mk quote inner spelled hquote h =>
    refine ⟨quote, inner ++ [quote], rfl, hquote, fun rest => ?_⟩
    rw [List.append_assoc, String.toList_ofList]
    exact quoted_spelled hquote h rest

theorem bare_word (h : IsBareWord text) (hrest : Ends rest) :
    bare (text ++ rest) = .ok (text, rest) := by
  obtain ⟨hne, hbare⟩ := h
  cases text with
  | nil => contradiction
  | cons c cs =>
    have hcs : ∀ d ∈ cs, isBare d = true := fun d hd => hbare d (List.mem_cons_of_mem _ hd)
    obtain ⟨htake, hdrop⟩ := Decimal.takeWhile_until rest hcs hrest
    rw [List.cons_append, bare, if_pos (hbare c (by simp)), htake, hdrop]

theorem not_isQuote_of_isBare (h : isBare c = true) : isQuote c = false := by
  rw [isQuote, Bool.or_eq_false_iff, beq_eq_false_iff_ne, beq_eq_false_iff_ne]
  constructor <;> rintro rfl <;> exact absurd h (by decide)

theorem key_yields {k : String} (h : DenotesKey text k) : Yields key text (.ok k) := by
  induction h with
  | @bare word h =>
    intro rest hrest
    refine ⟨rest, rfl, ?_⟩
    have hread := bare_word h hrest
    obtain ⟨c, cs, rfl⟩ := List.exists_cons_of_ne_nil h.1
    have hc : isBare c = true := h.2 c (by simp)
    rw [List.cons_append] at hread ⊢
    simp only [key, keyChars, Text.skip_cons (not_isBlank_of_isBare hc),
      not_isQuote_of_isBare hc, Bool.false_eq_true, if_false, hread]
    rfl
  | quoted h =>
    intro rest _
    obtain ⟨c, cs, rfl, hquote, hread⟩ := h.quoted_eq
    refine ⟨rest, rfl, ?_⟩
    simp only [List.cons_append, key, keyChars, Text.skip_cons hquote.not_isBlank, hquote.isQuote,
      if_true, hread, Except.map, String.ofList_toList]
  | padded hbefore hafter _ ih => exact ih.padded key_skipsBlank hbefore hafter

theorem entry_yields {read : Parser Tag} {k : String} {keyText : List Char}
    {outcome : Except Fault Tag} (hkey : DenotesKey keyText k) (h : Yields read text outcome) :
    Yields (entry read) (keyText ++ ':' :: text) (outcome.map fun t => (k, t)) := by
  intro rest hrest
  obtain ⟨afterKey, hskip, hread⟩ :=
    key_yields hkey (':' :: (text ++ rest)) (ends_cons (by decide))
  rw [Text.skip_cons (by decide)] at hskip
  obtain ⟨r, hr, hvalue⟩ := h rest hrest
  refine ⟨r, hr, ?_⟩
  rw [List.append_assoc, List.cons_append]
  simp only [entry, hread, bind, Except.bind, Except.map, expect_of_skipBlank hskip, hvalue]
  cases outcome <;> rfl

/-! ## Items with commas between them -/

variable {ts : List (List Char)} {f : β → List Char} {g : β → Except Fault α} {bs : List β}
  {bound : Nat}

theorem unmarked_of_encloses (h : Encloses ts cs) (hts : ∀ text ∈ ts, Unmarked text) :
    arrayMark? (cs ++ ']' :: rest) = none := by
  cases h with
  | blank h =>
    cases cs with
    | nil => rfl
    | cons c cs => exact arrayMark?_eq_none (not_mark_of_isBlank (h c (by simp)))
  | parts hne =>
    match ts, hne with
    | [text], _ => exact hts text (by simp) _ (by simp)
    | text :: next :: more, _ =>
      rw [Text.joinWith, List.append_assoc]
      exact hts text (by simp) _ (by simp)

/-- The induction is on the items; each takes one from the bound. -/
theorem items_joinWith (hclose : Closes close) (hne : bs ≠ []) (hbound : bs.length ≤ bound)
    (h : ∀ b ∈ bs, Yields parse (f b) (g b)) (rest : List Char) :
    items parse close bound (Text.joinWith ',' (bs.map f) ++ close :: rest) =
      (bs.mapM g).map fun xs => (xs, rest) := by
  induction bs generalizing bound with
  | nil => contradiction
  | cons b more ih =>
    obtain ⟨bound, rfl⟩ : ∃ n, bound = n + 1 :=
      ⟨bound - 1, by rw [List.length_cons] at hbound; omega⟩
    cases more with
    | nil =>
      obtain ⟨r, hr, hread⟩ :=
        h b (by simp) (close :: rest) (ends_cons (not_isBare_of_closes hclose))
      rw [Text.skip_cons (not_isBlank_of_closes hclose)] at hr
      rw [List.map_singleton, Text.joinWith, items, hread, List.mapM_cons, List.mapM_nil]
      cases g b with
      | error e => rfl
      | ok x =>
        simp only [Except.map, bind, Except.bind, hr, hclose.ne_comma, if_false, if_true]
        rfl
    | cons next more =>
      obtain ⟨r, hr, hread⟩ := h b (by simp)
        (',' :: (Text.joinWith ',' ((next :: more).map f) ++ close :: rest)) (ends_cons (by decide))
      rw [Text.skip_cons (by decide)] at hr
      have hmore := ih (by simp) (Nat.le_of_succ_le_succ hbound)
        fun b hb => h b (List.mem_cons_of_mem _ hb)
      rw [List.map_cons, List.map_cons, Text.joinWith, ← List.map_cons, List.append_assoc,
        List.cons_append, items, hread, List.mapM_cons]
      cases g b with
      | error e => rfl
      | ok x =>
        simp only [Except.map, bind, Except.bind, hr, if_true, hmore]
        cases List.mapM g (next :: more) <;> rfl

theorem body_encloses (hclose : Closes close) {inner : List Char}
    (hinner : Encloses (bs.map f) inner) (h : ∀ b ∈ bs, Yields parse (f b) (g b))
    (hopens : ∀ b ∈ bs, Opens (f b)) (rest : List Char) :
    body parse close (inner ++ close :: rest) = (bs.mapM g).map fun xs => (xs, rest) := by
  generalize htexts : bs.map f = texts at hinner
  cases hinner with
  | blank hblank =>
    rw [List.map_eq_nil_iff.1 htexts, body, Text.skip_append hblank,
      Text.skip_cons (not_isBlank_of_closes hclose)]
    exact if_pos rfl
  | parts hne =>
    subst htexts
    have hnil : bs ≠ [] := by simpa using hne
    have hbound : bs.length ≤ (Text.joinWith ',' (bs.map f) ++ close :: rest).length := by
      have hlength := Text.length_le_joinWith ',' (bs.map f)
      rw [List.length_map] at hlength
      rw [List.length_append, List.length_cons]
      omega
    obtain ⟨c, cs, hskip, hcloses⟩ :=
      (Text.opens_joinWith hne (by simpa using hopens)).append (close :: rest)
    have hother : c ≠ close := by
      rintro rfl
      exact hcloses hclose
    rw [body, hskip]
    simp only [hother, if_false]
    exact items_joinWith hclose hnil hbound h rest

/-! ## Values -/

theorem value_word (h : IsBareWord text) :
    Yields (value (bound + 1)) text (.ok (classify text)) := by
  intro rest hrest
  refine ⟨rest, rfl, ?_⟩
  have hread := bare_word h hrest
  obtain ⟨c, cs, rfl⟩ := List.exists_cons_of_ne_nil h.1
  have hc : isBare c = true := h.2 c (by simp)
  have hbrace : c ≠ '\x7b' := by
    rintro rfl
    exact absurd hc (by decide)
  have hbracket : c ≠ '[' := by
    rintro rfl
    exact absurd hc (by decide)
  rw [List.cons_append] at hread ⊢
  simp only [value, Text.skip_cons (not_isBlank_of_isBare hc), hbrace, hbracket,
    not_isQuote_of_isBare hc, Bool.false_eq_true, if_false, hread]
  rfl

theorem value_quoted {s : String} (h : DenotesQuoted text s) :
    Yields (value (bound + 1)) text (.ok (.string s)) := by
  intro rest _
  obtain ⟨c, cs, rfl, hquote, hread⟩ := h.quoted_eq
  refine ⟨rest, rfl, ?_⟩
  have hbrace : c ≠ '\x7b' := by rcases hquote with rfl | rfl <;> decide
  have hbracket : c ≠ '[' := by rcases hquote with rfl | rfl <;> decide
  simp only [List.cons_append, value, Text.skip_cons hquote.not_isBlank, hbrace, hbracket,
    hquote.isQuote, if_true, if_false, hread, Except.map, String.ofList_toList]

theorem value_compound {inner : List Char} {g : β → Except Fault (String × Tag)}
    (hinner : Encloses (bs.map f) inner)
    (h : ∀ b ∈ bs, Yields (entry (value bound)) (f b) (g b)) (hopens : ∀ b ∈ bs, Opens (f b)) :
    Yields (value (bound + 1)) ('\x7b' :: (inner ++ ['\x7d']))
      ((bs.mapM g).map fun entries => .compound (Table.ofEntries entries)) := by
  intro rest _
  refine ⟨rest, rfl, ?_⟩
  have hbody := body_encloses (.inr rfl) hinner h hopens rest
  rw [List.cons_append, List.append_assoc, List.singleton_append, value,
    Text.skip_cons (by decide)]
  simp only [if_true, hbody]
  cases bs.mapM g <;> rfl

theorem value_list {inner : List Char} {g : β → Except Fault Tag}
    (hinner : Encloses (bs.map f) inner) (h : ∀ b ∈ bs, Yields (value bound) (f b) (g b))
    (hopens : ∀ b ∈ bs, Opens (f b)) (hunmarked : ∀ b ∈ bs, Unmarked (f b)) :
    Yields (value (bound + 1)) ('[' :: (inner ++ [']'])) ((bs.mapM g).bind listOf) := by
  intro rest _
  refine ⟨rest, rfl, ?_⟩
  have hbody := body_encloses (.inl rfl) hinner h hopens rest
  have hmark : arrayMark? (inner ++ ']' :: rest) = none :=
    unmarked_of_encloses hinner (by simpa using hunmarked)
  have hbrace : '[' ≠ '\x7b' := by decide
  rw [List.cons_append, List.append_assoc, List.singleton_append, value,
    Text.skip_cons (by decide)]
  simp only [hbrace, if_false, if_true, listOrArray, hmark, hbody]
  cases bs.mapM g with
  | error e => rfl
  | ok ts =>
    simp only [Except.map, bind, Except.bind]
    cases listOf ts <;> rfl

theorem value_array {inner : List Char} {mark : Char} {kind : Kind} {g : β → Except Fault Tag}
    (hmark : ∀ cs, arrayMark? (mark :: ';' :: cs) = some (kind, cs))
    (hinner : Encloses (bs.map f) inner) (h : ∀ b ∈ bs, Yields (value bound) (f b) (g b))
    (hopens : ∀ b ∈ bs, Opens (f b)) :
    Yields (value (bound + 1)) ('[' :: mark :: ';' :: (inner ++ [']']))
      ((bs.mapM g).bind (arrayOf kind)) := by
  intro rest _
  refine ⟨rest, rfl, ?_⟩
  have hbody := body_encloses (.inl rfl) hinner h hopens rest
  have hbrace : '[' ≠ '\x7b' := by decide
  rw [List.cons_append, List.cons_append, List.cons_append, List.append_assoc,
    List.singleton_append, value, Text.skip_cons (by decide)]
  simp only [hbrace, if_false, if_true, listOrArray, hmark, hbody]
  cases bs.mapM g with
  | error e => rfl
  | ok ts =>
    simp only [Except.map, bind, Except.bind]
    cases arrayOf kind ts <;> rfl

end BlockConvert.Snbt
