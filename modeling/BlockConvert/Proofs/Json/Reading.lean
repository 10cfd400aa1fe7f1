import BlockConvert.Proofs.Decimal.Spelling
import BlockConvert.Proofs.Json.Grammar
import BlockConvert.Proofs.Snbt.Reading

set_option autoImplicit false

/-!
# A JSON text is read as the value that it denotes

Every text that denotes a value is read as that value. The layouts that the grammar puts together
are read one by one, whatever comes after them, only that the next character must not go on with a
number. The bound on nesting suffices because the text of a part is shorter than the text of the
whole.
-/

namespace BlockConvert

namespace Json

open Decimal (AllDigits)
open Text (Closes)

variable {α β : Type} {parse : Parser α} {text rest cs before after : List Char} {x : α}
  {c close : Char} {j : Json} {bound : Nat}

/-! ## Texts -/

theorem pieces_cons (hquote : c ≠ '"') (hslash : c ≠ '\\') (hcontrol : 0x20 ≤ c.toNat)
    (rest : List Char) :
    pieces (c :: rest) = (pieces rest).map fun (more, r) => (.char c :: more, r) := by
  rw [pieces]
  · rw [if_neg (by simpa [hslash] using hcontrol)]
    cases pieces rest <;> rfl
  · exact hquote
  · exact fun _ _ _ _ _ h => absurd h hslash
  · exact fun _ _ h => absurd h hslash

theorem pieces_letter {e : Char} (h : simpleEscape? e = some c) (rest : List Char) :
    pieces ('\\' :: e :: rest) = (pieces rest).map fun (more, r) => (.char c :: more, r) := by
  rw [pieces, h]
  · cases pieces rest <;> rfl
  · rintro _ _ _ _ _ rfl
    contradiction

theorem pieces_unit {digits : List Char} {n : Nat} (h : SpellsUnit digits n) (rest : List Char) :
    pieces ('\\' :: 'u' :: (digits ++ rest)) =
      (pieces rest).map fun (more, r) => (.unit n :: more, r) := by
  obtain ⟨ha, hb, hc, hd⟩ := h
  simp only [List.cons_append, List.nil_append]
  rw [pieces, ha, hb, hc, hd]
  cases pieces rest <;> rfl

/-- A spelling is read as pieces that are joined to its character. -/
theorem SpellsChar.reads {spelled : List Char} (h : SpellsChar spelled c) :
    ∃ ps, (∀ rest, pieces (spelled ++ rest) =
        (pieces rest).map fun (more, r) => (ps ++ more, r)) ∧
      ∀ more, joinPieces (ps ++ more) = (joinPieces more).map (c :: ·) := by
  cases h with
  | plain hcontrol hquote hslash =>
    exact ⟨[.char c], pieces_cons hquote hslash hcontrol, fun _ => rfl⟩
  | letter h => exact ⟨[.char c], pieces_letter h, fun _ => rfl⟩
  | @unit digits n h halone =>
    refine ⟨[.unit n], pieces_unit h, fun more => ?_⟩
    have hhigh : ¬(0xD800 ≤ n ∧ n < 0xDC00) := by omega
    have hlow : ¬(0xDC00 ≤ n ∧ n < 0xE000) := by omega
    rw [List.singleton_append, joinPieces.eq_def]
    simp only [hhigh, hlow, if_false]
  | @pair digits digits' n m hhigh hn hlow hm =>
    refine ⟨[.unit n, .unit m], fun rest => ?_, fun more => ?_⟩
    · rw [List.cons_append, List.cons_append, List.append_assoc, pieces_unit hhigh,
        List.cons_append, List.cons_append, pieces_unit hlow]
      cases pieces rest <;> rfl
    · rw [List.cons_append, List.singleton_append, joinPieces]
      simp only [hn, hm, and_self, if_true]

theorem textBody_spelled {inner : List Char} (h : SpellsText inner text) (rest : List Char) :
    textBody (inner ++ '"' :: rest) = some (some (String.ofList text), rest) := by
  suffices hpieces : ∃ ps, pieces (inner ++ '"' :: rest) = some (ps, rest) ∧
      joinPieces ps = some text by
    obtain ⟨ps, hread, hjoin⟩ := hpieces
    rw [textBody, hread]
    simp only [bind, Option.bind, hjoin]
    rfl
  induction h with
  | nil => exact ⟨[], by rw [List.nil_append, pieces], rfl⟩
  | cons hc _ ih =>
    obtain ⟨ps, hread, hjoin⟩ := ih
    obtain ⟨qs, hspelled, hjoined⟩ := hc.reads
    refine ⟨qs ++ ps, ?_, ?_⟩
    · rw [List.append_assoc, hspelled, hread]
      rfl
    · rw [hjoined, hjoin]
      rfl

/-! ## Blanks and ends -/

/-- The text that is left does not go on with a number. -/
def Ends (rest : List Char) : Prop := ∀ c ∈ rest.head?, isBlank c = true ∨ c = ',' ∨ Closes c

/-- Before any end the text is read as the value. What is left is what comes after it, apart from
blanks in front. -/
def Reads (parse : Parser α) (text : List Char) (x : α) : Prop :=
  ∀ rest, Ends rest →
    ∃ r, Text.skip isBlank r = Text.skip isBlank rest ∧ parse (text ++ rest) = some (x, r)

theorem ends_nil : Ends [] := fun _ h => by cases h

theorem ends_comma : Ends (',' :: rest) := fun _ h => .inr (.inl (Option.some.inj h).symm)

theorem ends_close (h : Closes c) : Ends (c :: rest) := fun _ hd =>
  .inr (.inr (Option.some.inj hd ▸ h))

theorem not_isBlank_of_closes (h : Closes c) : isBlank c = false := by
  rcases h with rfl | rfl <;> decide

theorem Ends.append (h : AllBlank after) (hrest : Ends rest) : Ends (after ++ rest) :=
  Text.forall_head_append (fun _ => .inl) h hrest

/-- No end goes on with digits, a point or an exponent. -/
theorem Ends.head (hrest : Ends rest) (h : c ∈ rest.head?) :
    c.isDigit = false ∧ c ≠ '.' ∧ c ≠ 'e' ∧ c ≠ 'E' := by
  have hblank : isBlank c = true → c = ' ' ∨ c = '\n' ∨ c = '\r' ∨ c = '\t' := by
    simp [isBlank, or_assoc]
  rcases hrest c h with hc | rfl | rfl | rfl
  · rcases hblank hc with rfl | rfl | rfl | rfl <;> decide
  all_goals decide

theorem value_skipBlank (bound : Nat) (cs : List Char) :
    value bound cs = value bound (Text.skip isBlank cs) := by
  cases bound with
  | zero => rfl
  | succ bound => simp only [value, Text.skip_skip]

theorem Reads.padded (hbefore : AllBlank before) (hafter : AllBlank after)
    (h : Reads (value bound) text j) : Reads (value bound) (before ++ text ++ after) j := by
  intro rest hrest
  obtain ⟨r, hr, hread⟩ := h (after ++ rest) (hrest.append hafter)
  refine ⟨r, hr.trans (Text.skip_append hafter rest), ?_⟩
  rw [List.append_assoc, List.append_assoc, value_skipBlank, Text.skip_append hbefore,
    ← value_skipBlank, hread]

/-! ## Numbers -/

def NoDigit (rest : List Char) : Prop := ∀ c ∈ rest.head?, c.isDigit = false

theorem digits1_append {ds : List Char} (hne : ds ≠ []) (hds : AllDigits ds)
    (hrest : NoDigit rest) : digits1 (ds ++ rest) = some (ds, rest) := by
  obtain ⟨htake, hdrop⟩ := Decimal.takeWhile_until rest hds hrest
  simp [digits1, htake, hdrop, hne]

theorem IsWholePart.reads {ds : List Char} (h : IsWholePart ds) (hrest : NoDigit rest) :
    wholeDigits (ds ++ rest) = some (ds, rest) := by
  rcases h with rfl | ⟨hds, hne, hzero⟩
  · cases rest with
    | nil => rfl
    | cons c cs =>
      have hc : c.isDigit = false := hrest c rfl
      simp [wholeDigits, hc]
  · obtain ⟨d, more, rfl⟩ := List.exists_cons_of_ne_nil hne
    have hd : d ≠ '0' := fun heq => hzero (by rw [heq]; rfl)
    rw [List.cons_append, wholeDigits, ← List.cons_append, digits1_append hne hds hrest]
    exact fun _ heq => hd (List.cons.inj heq).1

theorem SpellsFraction.reads {behind : Option (List Char)} (h : SpellsFraction text behind)
    (hrest : NoDigit rest) (hpoint : '.' ∉ rest.head?) :
    fractionDigits (text ++ rest) = some (behind, rest) := by
  cases h with
  | absent =>
    rw [List.nil_append, fractionDigits]
    rintro cs rfl
    exact hpoint rfl
  | digits hne hds => rw [List.cons_append, fractionDigits, digits1_append hne hds hrest]; rfl

theorem splitSign_append {body : List Char} {n : Int} (h : Snbt.SpellsInteger body n) :
    ∃ negative ds, ds ≠ [] ∧ AllDigits ds ∧
      n = (if negative then -(Nat.ofDigitChars 10 ds 0 : Int) else Nat.ofDigitChars 10 ds 0) ∧
      ∀ rest, Decimal.splitSign (body ++ rest) = (negative, ds ++ rest) := by
  cases h with
  | unsigned hne hds =>
    refine ⟨false, body, hne, hds, rfl, fun rest => ?_⟩
    obtain ⟨d, more, rfl⟩ := List.exists_cons_of_ne_nil hne
    exact Decimal.splitSign_of_isDigit (hds d (by simp)) (more ++ rest)
  | plus hne hds => exact ⟨false, _, hne, hds, rfl, fun _ => rfl⟩
  | minus hne hds => exact ⟨true, _, hne, hds, rfl, fun _ => rfl⟩

theorem SpellsExponent.reads {power : Option Int} (h : SpellsExponent text power)
    (hrest : Ends rest) : exponentValue (text ++ rest) = some (power, rest) := by
  cases h with
  | absent =>
    cases rest with
    | nil => rfl
    | cons c cs =>
      have hc := hrest.head (c := c) rfl
      simp [exponentValue, hc]
  | power hmark h =>
    obtain ⟨negative, ds, hne, hds, rfl, hsplit⟩ := splitSign_append h
    have hread := digits1_append hne hds fun c hc => (hrest.head hc).1
    rw [List.cons_append, exponentValue, if_pos hmark]
    simp only [hsplit, hread, Decimal.foldDigits_eq 0 hds, bind, Option.bind]
    rfl

theorem SpellsFraction.head {behind : Option (List Char)} (h : SpellsFraction text behind)
    (hrest : NoDigit rest) : NoDigit (text ++ rest) := by
  cases h with
  | absent => exact hrest
  | digits _ _ =>
    intro c hc
    obtain rfl : '.' = c := Option.some.inj hc
    rfl

theorem SpellsExponent.head {power : Option Int} (h : SpellsExponent text power)
    (hrest : Ends rest) (hc : c ∈ (text ++ rest).head?) : c.isDigit = false ∧ c ≠ '.' := by
  cases h with
  | absent => exact ⟨(hrest.head hc).1, (hrest.head hc).2.1⟩
  | power hmark _ =>
    obtain rfl := Option.some.inj hc
    rcases hmark with rfl | rfl <;> decide

theorem IsWholePart.exists_digit {ds : List Char} (h : IsWholePart ds) :
    ∃ d more, ds = d :: more ∧ d.isDigit = true := by
  rcases h with rfl | ⟨hds, hne, -⟩
  · exact ⟨'0', [], rfl, rfl⟩
  · obtain ⟨d, more, rfl⟩ := List.exists_cons_of_ne_nil hne
    exact ⟨d, more, rfl, hds d (by simp)⟩

theorem SpellsNumber.reads {n : JsonNumber} (h : SpellsNumber text n) (hrest : Ends rest) :
    numberBody (text ++ rest) = some (some n, rest) := by
  obtain @⟨negative, whole, fraction, exponent, behind, power, _, hwhole, hfraction, hexponent,
    hvalue⟩ := h
  have hafterFraction : NoDigit (exponent ++ rest) := fun c hc => (hexponent.head hrest hc).1
  have hpoint : '.' ∉ (exponent ++ rest).head? := fun hc => (hexponent.head hrest hc).2 rfl
  have hreadWhole := hwhole.reads (hfraction.head hafterFraction)
  have hreadFraction := hfraction.reads hafterFraction hpoint
  have hreadExponent := hexponent.reads hrest
  obtain ⟨d, more, rfl, hd⟩ := hwhole.exists_digit
  rw [List.cons_append] at hreadWhole
  cases negative with
  | true =>
    simp only [if_true, List.append_assoc, List.cons_append, List.nil_append]
    rw [numberBody, hreadWhole]
    simp only [Option.bind_eq_bind, Option.bind_some, hreadFraction, hreadExponent, hvalue]
    rfl
  | false =>
    have hminus : d ≠ '-' := by
      rintro rfl
      exact absurd hd (by decide)
    simp only [Bool.false_eq_true, if_false, List.append_assoc, List.cons_append, List.nil_append]
    rw [numberBody, hreadWhole]
    · simp only [Option.bind_eq_bind, Option.bind_some, hreadFraction, hreadExponent, hvalue]
      rfl
    · exact fun _ heq => hminus (List.cons.inj heq).1

theorem SpellsNumber.exists_head {n : JsonNumber} (h : SpellsNumber text n) :
    ∃ c cs, text = c :: cs ∧ (c = '-' ∨ c.isDigit = true) := by
  obtain @⟨negative, whole, fraction, exponent, _, _, _, hwhole, -, -, -⟩ := h
  obtain ⟨d, more, rfl, hd⟩ := hwhole.exists_digit
  cases negative with
  | true => exact ⟨'-', _, rfl, .inl rfl⟩
  | false => exact ⟨d, _, rfl, .inr hd⟩

/-! ## Items with commas between them -/

variable {ts : List (List Char)} {f : β → List Char} {g : β → α} {bs : List β}

abbrev Opens : List Char → Prop := Text.Opens isBlank

/-- The induction is on the items; each takes one from the bound. -/
theorem items_joinWith (hclose : Closes close) (hne : bs ≠ []) (hbound : bs.length ≤ bound)
    (h : ∀ b ∈ bs, Reads parse (f b) (g b)) (rest : List Char) :
    items parse close bound (Text.joinWith ',' (bs.map f) ++ close :: rest) =
      some (bs.map g, rest) := by
  induction bs generalizing bound with
  | nil => contradiction
  | cons b more ih =>
    obtain ⟨bound, rfl⟩ : ∃ n, bound = n + 1 :=
      ⟨bound - 1, by rw [List.length_cons] at hbound; omega⟩
    cases more with
    | nil =>
      obtain ⟨r, hr, hread⟩ := h b (by simp) (close :: rest) (ends_close hclose)
      rw [Text.skip_cons (not_isBlank_of_closes hclose)] at hr
      simp only [List.map_cons, List.map_nil, Text.joinWith, items, hread, Option.bind_eq_bind,
        Option.bind_some, hr, hclose.ne_comma, if_false, if_true]
      rfl
    | cons next more =>
      obtain ⟨r, hr, hread⟩ := h b (by simp)
        (',' :: (Text.joinWith ',' ((next :: more).map f) ++ close :: rest)) ends_comma
      rw [Text.skip_cons (by decide)] at hr
      have hmore := ih (by simp) (Nat.le_of_succ_le_succ hbound)
        fun b hb => h b (List.mem_cons_of_mem _ hb)
      rw [List.map_cons, List.map_cons, Text.joinWith, ← List.map_cons, List.append_assoc,
        List.cons_append, items, hread]
      simp only [Option.bind_eq_bind, Option.bind_some, hr, if_true, hmore]
      rfl

theorem body_encloses (hclose : Closes close) {inner : List Char}
    (hinner : Encloses (bs.map f) inner) (h : ∀ b ∈ bs, Reads parse (f b) (g b))
    (hopens : ∀ b ∈ bs, Opens (f b)) (rest : List Char) :
    body parse close (inner ++ close :: rest) = some (bs.map g, rest) := by
  generalize htexts : bs.map f = texts at hinner
  cases hinner with
  | blank hblank =>
    rw [List.map_eq_nil_iff.1 htexts, body, Text.skip_append hblank,
      Text.skip_cons (not_isBlank_of_closes hclose)]
    exact if_pos rfl
  | parts hne =>
    subst htexts
    have hnil : bs ≠ [] := by simpa using hne
    have hbound : bs.length ≤ (Text.joinWith ',' (bs.map f) ++ close :: rest).length := by
      have hlength := Text.length_le_joinWith ',' (bs.map f)
      rw [List.length_map] at hlength
      rw [List.length_append, List.length_cons]
      omega
    obtain ⟨c, cs, hskip, hcloses⟩ :=
      (Text.opens_joinWith hne (by simpa using hopens)).append (close :: rest)
    have hother : c ≠ close := by
      rintro rfl
      exact hcloses hclose
    rw [body, hskip]
    simp only [hother, if_false]
    exact items_joinWith hclose hnil hbound h rest

/-! ## Values -/

theorem startsNumber_not_isBlank (h : c = '-' ∨ c.isDigit = true) : isBlank c = false := by
  rw [isBlank, Bool.or_eq_false_iff, Bool.or_eq_false_iff, Bool.or_eq_false_iff]
  simp only [beq_eq_false_iff_ne]
  refine ⟨⟨⟨?_, ?_⟩, ?_⟩, ?_⟩ <;> rintro rfl <;> exact absurd h (by decide)

theorem value_number (h : c = '-' ∨ c.isDigit = true) (cs : List Char) :
    value (bound + 1) (c :: cs) = (numberBody (c :: cs)).map fun (n, r) => (.number n, r) := by
  rw [value, Text.skip_cons (startsNumber_not_isBlank h)]
  split
  case h_7 => rfl
  all_goals
    rename_i heq
    obtain ⟨rfl, -⟩ := List.cons.inj heq
    exact absurd h (by decide)

theorem value_text {inner text : List Char} (h : SpellsText inner text) :
    Reads (value (bound + 1)) ('"' :: (inner ++ ['"'])) (.text (some (String.ofList text))) := by
  intro rest _
  refine ⟨rest, rfl, ?_⟩
  have hread := textBody_spelled h rest
  rw [List.cons_append, List.append_assoc, List.singleton_append, value,
    Text.skip_cons (by decide)]
  simp only [hread]
  rfl

theorem value_array {inner : List Char} {g : β → Json} (hinner : Encloses (bs.map f) inner)
    (h : ∀ b ∈ bs, Reads (value bound) (f b) (g b)) (hopens : ∀ b ∈ bs, Opens (f b)) :
    Reads (value (bound + 1)) ('[' :: (inner ++ [']'])) (.array (bs.map g)) := by
  intro rest _
  refine ⟨rest, rfl, ?_⟩
  have hbody := body_encloses (.inl rfl) hinner h hopens rest
  rw [List.cons_append, List.append_assoc, List.singleton_append, value,
    Text.skip_cons (by decide)]
  simp only [hbody]
  rfl

theorem value_object {inner : List Char} {g : β → Option String × Json}
    (hinner : Encloses (bs.map f) inner)
    (h : ∀ b ∈ bs, Reads (member (value bound)) (f b) (g b)) (hopens : ∀ b ∈ bs, Opens (f b)) :
    Reads (value (bound + 1)) ('\x7b' :: (inner ++ ['\x7d'])) (.object (bs.map g)) := by
  intro rest _
  refine ⟨rest, rfl, ?_⟩
  have hbody := body_encloses (.inr rfl) hinner h hopens rest
  rw [List.cons_append, List.append_assoc, List.singleton_append, value,
    Text.skip_cons (by decide)]
  simp only [hbody]
  rfl

theorem DenotesName.opens {nameText name : List Char} (h : DenotesName nameText name) :
    Opens nameText := by
  obtain ⟨hbefore, -, -⟩ := h
  rw [← List.append_nil (_ ++ _)]
  exact .padded hbefore (Text.opens_cons (by decide) (by unfold Closes; decide)) []

theorem member_reads {read : Parser Json} {nameText name valueText : List Char}
    (hname : DenotesName nameText name) (h : Reads read valueText j) :
    Reads (member read) (nameText ++ ':' :: valueText) (some (String.ofList name), j) := by
  intro rest hrest
  obtain ⟨r, hr, hread⟩ := h rest hrest
  refine ⟨r, hr, ?_⟩
  cases hname with
  | @mk before inner after _ hbefore hafter hspells =>
    have htext := textBody_spelled hspells (after ++ ':' :: (valueText ++ rest))
    have hcolon : Text.skip isBlank (after ++ ':' :: (valueText ++ rest)) =
        ':' :: (valueText ++ rest) := by
      rw [Text.skip_append hafter, Text.skip_cons (by decide)]
    simp only [List.append_assoc, List.cons_append]
    rw [member, Text.skip_append hbefore, Text.skip_cons (by decide)]
    simp only [htext, Option.bind_eq_bind, Option.bind_some, hcolon, hread]
    rfl

theorem MemberText.opens {m : MemberText} (h : DenotesName m.nameText m.name) : Opens m.text :=
  h.opens.append _

theorem Denotes.opens (h : Denotes text j) : Opens text := by
  induction h with
  | null | yes | no => exact Text.opens_cons (by decide) (by unfold Closes; decide)
  | number h =>
    obtain ⟨c, cs, rfl, hc⟩ := h.exists_head
    refine Text.opens_cons (startsNumber_not_isBlank hc) ?_
    rintro (rfl | rfl) <;> exact absurd hc (by decide)
  | text _ => exact Text.opens_cons (by decide) (by unfold Closes; decide)
  | array _ _ _ => exact Text.opens_cons (by decide) (by unfold Closes; decide)
  | object _ _ _ _ => exact Text.opens_cons (by decide) (by unfold Closes; decide)
  | padded hbefore _ _ ih => exact ih.padded hbefore _

/-- The bound suffices because brackets make a text longer than its parts. -/
theorem Denotes.reads (h : Denotes text j) (hbound : text.length < bound) :
    Reads (value bound) text j := by
  obtain ⟨bound, rfl⟩ := Nat.exists_eq_succ_of_ne_zero (Nat.ne_zero_of_lt hbound)
  induction h generalizing bound with
  | null | yes | no => exact fun rest _ => ⟨rest, rfl, rfl⟩
  | number h =>
    intro rest hrest
    refine ⟨rest, rfl, ?_⟩
    have hread := h.reads hrest
    obtain ⟨c, cs, rfl, hc⟩ := h.exists_head
    rw [List.cons_append] at hread ⊢
    rw [value_number hc, hread]
    rfl
  | text h => exact value_text h
  | @array parts inner hinner hparts ih =>
    refine value_array hinner (fun p hp => ?_) fun p hp => (hparts p hp).opens
    have hle := hinner.length_le (List.mem_map_of_mem (f := Prod.fst) hp)
    simp only [List.length_append, List.length_cons, List.length_nil] at hbound
    obtain ⟨n, rfl⟩ : ∃ n, bound = n + 1 := ⟨bound - 1, by omega⟩
    exact ih p hp n (by omega)
  | @object ms inner hinner hnames hvalues ih =>
    refine value_object hinner (fun m hm => member_reads (hnames m hm) ?_) fun m hm =>
      MemberText.opens (hnames m hm)
    have hle := hinner.length_le (List.mem_map_of_mem (f := MemberText.text) hm)
    simp only [MemberText.text, List.length_append, List.length_cons, List.length_nil]
      at hle hbound
    obtain ⟨n, rfl⟩ : ∃ n, bound = n + 1 := ⟨bound - 1, by omega⟩
    exact ih m hm n (by omega)
  | padded hbefore hafter _ ih =>
    refine (ih bound ?_).padded hbefore hafter
    simp only [List.length_append] at hbound
    omega

theorem parse?_of_denotes (h : Denotes text j) : parse? (String.ofList text) = some j := by
  obtain ⟨r, hr, hread⟩ := h.reads (Nat.lt_succ_self _) [] ends_nil
  have hskip : Text.skip isBlank r = [] := hr
  rw [List.append_nil] at hread
  rw [parse?, String.toList_ofList]
  simp only [hread, Option.bind_eq_bind, Option.bind_some, hskip]
  rfl

/-! ## Values that can be taken as a whole -/

theorem Denotes.isSound (h : Denotes text j) : j.isSound = true := by
  induction h with
  | null | yes | no | number _ | text _ => rfl
  | array _ _ ih =>
    rw [Json.isSound, soundItems_eq, List.all_map, List.all_eq_true]
    exact List.forall_mem_map.2 ih
  | object _ _ _ ih =>
    rw [Json.isSound, soundMembers_eq, List.all_map, List.all_eq_true]
    exact List.forall_mem_map.2 ih
  | padded _ _ _ ih => exact ih

end Json

end BlockConvert
