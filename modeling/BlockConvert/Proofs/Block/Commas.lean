import BlockConvert.Block.Blockstate
import BlockConvert.Proofs.Snbt.RoundTrip

set_option autoImplicit false

/-!
# Parting properties at commas

A scan for commas passes over a text if it meets no comma outside quotes on it. It passes over every
name without commas and quotes, and over the text of every number and every text, where it takes the
same characters for the closing quote and for escaped ones as the reader of tags does. So properties
that are printed with commas between them are parted at just these commas.
-/

namespace BlockConvert

namespace Blockstate

/-- The scan gets from one state to another over the text and meets no comma outside quotes. -/
inductive Scan.Passes : Scan → List Char → Scan → Prop
  | nil {scan : Scan} : Passes scan [] scan
  | cons {scan scan' : Scan} {c : Char} {cs : List Char} (hcomma : scan = .outside → c ≠ ',')
      (rest : Passes (scan.next c) cs scan') : Passes scan (c :: cs) scan'

variable {scan scan' scan'' : Scan} {cs cs' rest piece : List Char} {pieces : List (List Char)}
  {c : Char}

theorem Scan.Passes.append (h : scan.Passes cs scan') (h' : scan'.Passes cs' scan'') :
    scan.Passes (cs ++ cs') scan'' := by
  induction h with
  | nil => exact h'
  | cons hcomma _ ih => exact .cons hcomma (ih h')

theorem splitProperties_comma (rest : List Char) :
    splitProperties .outside (',' :: rest) = [] :: splitProperties .outside rest := rfl

theorem splitProperties_cons (hcomma : scan = .outside → c ≠ ',')
    (h : splitProperties (scan.next c) rest = piece :: pieces) :
    splitProperties scan (c :: rest) = (c :: piece) :: pieces := by
  rw [splitProperties.eq_def]
  dsimp only
  split
  · exact absurd rfl (hcomma rfl)
  · rw [h]

theorem Scan.Passes.splitProperties (h : scan.Passes cs scan')
    (hrest : splitProperties scan' rest = piece :: pieces) :
    splitProperties scan (cs ++ rest) = (cs ++ piece) :: pieces := by
  induction h with
  | nil => exact hrest
  | cons hcomma _ ih => exact splitProperties_cons hcomma (ih hrest)

theorem splitProperties_joinWith (hne : pieces ≠ [])
    (h : ∀ piece ∈ pieces, Scan.outside.Passes piece .outside) :
    splitProperties .outside (Text.joinWith ',' pieces) = pieces := by
  induction pieces using Text.joinWith.induct with
  | case1 => contradiction
  | case2 piece =>
    have hend : splitProperties .outside [] = [[]] := rfl
    have hsplit := (h piece (by simp)).splitProperties hend
    rwa [List.append_nil] at hsplit
  | case3 piece next more ih =>
    have hmore := ih (by simp) fun piece hpiece => h piece (List.mem_cons_of_mem _ hpiece)
    have hcomma := splitProperties_comma (Text.joinWith ',' (next :: more))
    have hsplit := (h piece (by simp)).splitProperties hcomma
    rw [List.append_nil, hmore] at hsplit
    exact hsplit

/-! ## What a scan passes over -/

theorem passes_plain (h : ∀ c ∈ cs, c ≠ ',' ∧ ¬Snbt.IsQuote c) :
    Scan.outside.Passes cs .outside := by
  induction cs with
  | nil => exact .nil
  | cons c rest ih =>
    obtain ⟨hcomma, hquote⟩ := h c (by simp)
    refine .cons (fun _ => hcomma) ?_
    have hnext : Scan.outside.next c = .outside := if_neg hquote
    rw [hnext]
    exact ih fun d hd => h d (List.mem_cons_of_mem _ hd)

theorem passes_bareWord (h : Snbt.IsBareWord cs) : Scan.outside.Passes cs .outside := by
  refine passes_plain fun c hc => ⟨?_, fun hquote => ?_⟩
  · rintro rfl
    exact absurd (h.2 ',' hc) (by decide)
  · have hbare := h.2 c hc
    rcases hquote with rfl | rfl <;> exact absurd hbare (by decide)

/-- Inside quotes the scan steps over the same characters as the reader of tags. -/
theorem passes_spelled {quote : Char} (h : Snbt.SpellsText quote cs cs') :
    (Scan.inside quote).Passes cs (.inside quote) := by
  have hescaped {c : Char} {cs : List Char}
      (ih : (Scan.inside quote).Passes cs (.inside quote)) :
      (Scan.inside quote).Passes ('\\' :: c :: cs) (.inside quote) := .cons nofun (.cons nofun ih)
  induction h with
  | nil => exact .nil
  | plain hquote hslash _ ih =>
    refine .cons nofun ?_
    rwa [Scan.next, if_neg hslash, if_neg hquote]
  | line _ ih => exact hescaped ih
  | escaped _ _ ih => exact hescaped ih

theorem passes_quoted {s : String} (h : Snbt.DenotesQuoted cs s) :
    Scan.outside.Passes cs .outside := by
  cases h with
  | @mk quote inner _ hquote h =>
    have hslash : quote ≠ '\\' := by rcases hquote with rfl | rfl <;> decide
    have hopen : Scan.outside.next quote = .inside quote := if_pos hquote
    have hclose : (Scan.inside quote).next quote = .outside := by
      rw [Scan.next, if_neg hslash, if_pos rfl]
    refine .cons (fun _ => by rcases hquote with rfl | rfl <;> decide) ?_
    rw [hopen]
    refine (passes_spelled h).append (.cons nofun ?_)
    rw [hclose]
    exact .nil

end Blockstate

end BlockConvert
