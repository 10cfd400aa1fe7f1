import BlockConvert.Proofs.Snbt.Scanning

set_option autoImplicit false

/-!
# Where reading stands, and where a fault is

Over any text the scanner comes to the answer of the reader. It never cuts the text off a boundary,
and it is never stopped by a bound. A position that is told with an error is one at which the text
shows the error.
-/

namespace BlockConvert

namespace Snbt

/-- Up to the position there is a text of a tag, with blanks behind it, and there a character that
is not blank starts. -/
def TrailsAt (text : String) (position : Nat) : Prop :=
  ∃ (value blanks after : List Char) (t : Tag) (c : Char),
    text.toList = value ++ blanks ++ c :: after ∧ byteSize (value ++ blanks) = position ∧
      Denotes value t ∧ AllBlank blanks ∧ CharAt text position c ∧ Text.isBlank c = false

end Snbt

/-- What the error tells is found at the position that it tells. -/
def SnbtError.PointsAt (text : String) : SnbtError → Prop
  | .unexpected found position => Snbt.CharAt text position found
  | .trailing position => Snbt.TrailsAt text position
  | _ => True

namespace Snbt

variable {text : String} {rest : List Char} {c : Char} {cur : Cursor}

/-! ## The whole text -/

theorem Cursor.Before.lt_size_iff (h : cur.Before text rest) :
    cur.position < text.utf8ByteSize ↔ rest ≠ [] := by
  obtain ⟨passed, htext, hposition⟩ := h.passed
  rw [← byteSize_toList, htext, byteSize_append, ← hposition]
  constructor
  · rintro hlt rfl
    exact Nat.lt_irrefl _ hlt
  · intro hne
    have hpos := byteSize_pos hne
    omega

theorem finish_before (t : Tag) (h : cur.Before text rest) :
    ∃ next : Cursor, next.Before text (Text.skip Text.isBlank rest) ∧
      (Scanner.finish t).runAt text cur =
        (if Text.skip Text.isBlank rest = [] then .ok t
          else .error (.refused (.trailing next.position)), next) := by
  obtain ⟨next, hrun, hnext⟩ := (Scanner.scans_skipBlank rest cur h).exists_cursor
  refine ⟨next, hnext, ?_⟩
  rw [Scanner.finish, Scanner.runAt_bind_ok hrun, Scanner.runAt_position_bind,
    Scanner.runAt_read_bind]
  by_cases hend : Text.skip Text.isBlank rest = []
  · rw [if_neg (by rw [hnext.lt_size_iff]; exact not_not.2 hend), if_pos hend, Scanner.runAt_pure]
  · rw [if_pos (hnext.lt_size_iff.2 hend), if_neg hend, Scanner.runAt_refuse]

theorem scan_value (text : String) :
    Meets text (value (text.toList.length + 1) text.toList)
      ((Scanner.value (text.toList.length + 1)).runAt text .start) :=
  Scanner.scans_value (Nat.lt_succ_self _) _ (Cursor.start_before text)

theorem scan_eq (text : String) :
    (∃ rest, (scan text).2.Before text rest) ∧
      (scan text).1 = (Tag.ofSnbt text).mapError Halt.refused := by
  have hmeets := scan_value text
  rw [scan, Scanner.whole, Scanner.runAt_loopBound_bind, Tag.ofSnbt, readChars]
  generalize hrun : (Scanner.value (text.toList.length + 1)).runAt text .start = result at hmeets
  generalize value (text.toList.length + 1) text.toList = outcome at hmeets
  cases hmeets with
  | error h _ =>
    rw [Scanner.runAt_bind_error hrun]
    exact ⟨⟨_, h⟩, rfl⟩
  | @ok t rest cur h =>
    obtain ⟨next, hnext, hfinish⟩ := finish_before t h
    rw [Scanner.runAt_bind_ok hrun, hfinish, hnext.position_eq]
    refine ⟨⟨_, hnext⟩, ?_⟩
    dsimp only
    cases Text.skip Text.isBlank rest <;> rfl

/-! ## Errors -/

theorem readChars_eq_error {cs : List Char} {e : SnbtError} (h : readChars cs = .error e) :
    (∃ fault, value (cs.length + 1) cs = .error fault ∧ e = SnbtError.ofFault cs fault) ∨
      ∃ t rest, value (cs.length + 1) cs = .ok (t, rest) ∧ Text.skip Text.isBlank rest ≠ [] ∧
        e = .trailing (byteSize cs - byteSize (Text.skip Text.isBlank rest)) := by
  rw [readChars] at h
  split at h
  · rename_i fault hvalue
    cases h
    exact .inl ⟨fault, hvalue, rfl⟩
  · rename_i t rest hvalue
    split at h
    · contradiction
    · rename_i hne
      cases h
      exact .inr ⟨t, rest, hvalue, hne, rfl⟩

/-- A fault that tells a character is found again at the position that comes of it. -/
theorem pointsAt_ofFault {fault : Fault} (h : fault.Within text.toList) :
    (SnbtError.ofFault text.toList fault).PointsAt text := by
  cases fault with
  | unexpected found after =>
    obtain ⟨passed, htext⟩ := h
    have hposition : byteSize text.toList - byteSize (found :: after) = byteSize passed := by
      rw [← htext, byteSize_append, Nat.add_sub_cancel]
    show CharAt text (byteSize text.toList - byteSize (found :: after)) found
    rw [hposition]
    exact charAt_of_split htext.symm
  | _ => trivial

theorem not_isBlank_of_skipBlank {cs : List Char} (h : Text.skip Text.isBlank cs = c :: rest) :
    Text.isBlank c = false := by
  have hhead := List.head?_dropWhile_not Text.isBlank cs
  rw [Text.skip] at h
  rw [h] at hhead
  exact hhead

theorem trailsAt_of_value {bound : Nat} {t : Tag}
    (hvalue : value bound text.toList = .ok (t, rest)) (hne : Text.skip Text.isBlank rest ≠ []) :
    TrailsAt text (byteSize text.toList - byteSize (Text.skip Text.isBlank rest)) := by
  obtain ⟨taken, htaken, hdenotes⟩ := denotes_of_value hvalue
  obtain ⟨blanks, hblanks, hrest⟩ := exists_blanks rest
  obtain ⟨c, after, hskip⟩ := List.exists_cons_of_ne_nil hne
  rw [hskip] at hrest ⊢
  have htext : text.toList = (taken ++ blanks) ++ c :: after := by
    rw [htaken, hrest, List.append_assoc]
  have hposition : byteSize text.toList - byteSize (c :: after) = byteSize (taken ++ blanks) := by
    rw [htext, byteSize_append _ (c :: after), Nat.add_sub_cancel]
  rw [hposition]
  exact ⟨taken, blanks, after, t, c, htext, rfl, hdenotes, hblanks, charAt_of_split htext,
    not_isBlank_of_skipBlank hskip⟩

theorem pointsAt_of_ofSnbt {e : SnbtError} (h : Tag.ofSnbt text = .error e) : e.PointsAt text := by
  rcases readChars_eq_error h with ⟨fault, hvalue, rfl⟩ | ⟨t, rest, hvalue, hne, rfl⟩
  · have hmeets := scan_value text
    rw [hvalue] at hmeets
    exact pointsAt_ofFault hmeets.within
  · exact trailsAt_of_value hvalue hne

/-- The scanner comes to the answer of the reader: it never cuts the text where no character starts
and no loop goes on for longer than the text. All the way it is at boundaries and never goes back.
Where it ends with an error, the text shows the error at the position that is told. -/
theorem scan_positions (text : String) :
    (scan text).1 = (Tag.ofSnbt text).mapError Halt.refused ∧
      (∀ p ∈ (scan text).2.visited, IsBoundary text p) ∧
      (scan text).2.visited.Pairwise (· ≥ ·) ∧
      ∀ e, Tag.ofSnbt text = .error e → e.PointsAt text := by
  obtain ⟨⟨rest, hcursor⟩, hresult⟩ := scan_eq text
  exact ⟨hresult, hcursor.boundaries, hcursor.forward, fun e he => pointsAt_of_ofSnbt he⟩

/-- The accents take two bytes each. -/
theorem scan_positions_accents :
    Tag.ofSnbt "\x7bé:1\x7d" = .error (.unexpected 'é' 1) ∧ CharAt "\x7bé:1\x7d" 1 'é' ∧
      Tag.ofSnbt "'é' è" = .error (.trailing 5) ∧ TrailsAt "'é' è" 5 := by
  have hkey : Tag.ofSnbt "\x7bé:1\x7d" = .error (.unexpected 'é' 1) := rfl
  have hbehind : Tag.ofSnbt "'é' è" = .error (.trailing 5) := rfl
  exact ⟨hkey, (scan_positions _).2.2.2 _ hkey, hbehind, (scan_positions _).2.2.2 _ hbehind⟩

end Snbt

end BlockConvert
