import BlockConvert.Proofs.Snbt.Acceptance
import BlockConvert.Proofs.Snbt.Offsets

set_option autoImplicit false

/-!
# The scanner does what the parser does

A scan that stands before some rest of the text comes to what the parser makes of that rest: to the
same result, with the cursor before what the parser leaves, or to the same refusal. All positions on
the way are boundaries and none lies before an earlier one. There is one statement for each part of
the scanner, and they are put together along the parser.
-/

namespace BlockConvert.Snbt

open Text (Closes)

variable {α β : Type} {text : String} {taken rest s r : List Char} {c : Char} {cur : Cursor}

/-! ## Where a cursor stands -/

/-- The cursor stands before the rest of the text. It has been at boundaries only and was never
moved backwards. -/
structure Cursor.Before (cur : Cursor) (text : String) (rest : List Char) : Prop where
  passed : ∃ passed, text.toList = passed ++ rest ∧ byteSize passed = cur.position
  boundaries : ∀ p ∈ cur.visited, IsBoundary text p
  forward : cur.visited.Pairwise (· ≥ ·)

theorem Cursor.start_before (text : String) : Cursor.start.Before text text.toList where
  passed := ⟨[], rfl, rfl⟩
  boundaries p hp := by
    obtain rfl := List.mem_singleton.1 hp
    exact isBoundary_of_split (List.nil_append text.toList).symm
  forward := List.pairwise_singleton _ _

theorem Cursor.Before.length_le (h : cur.Before text rest) : rest.length ≤ text.toList.length := by
  obtain ⟨passed, htext, -⟩ := h.passed
  rw [htext, List.length_append]
  omega

theorem Cursor.Before.position_eq (h : cur.Before text rest) :
    cur.position = byteSize text.toList - byteSize rest := by
  obtain ⟨passed, htext, hposition⟩ := h.passed
  rw [htext, byteSize_append]
  omega

theorem Cursor.Before.moveTo (h : cur.Before text (taken ++ rest)) :
    (cur.moveTo (cur.position + byteSize taken)).Before text rest := by
  obtain ⟨passed, htext, hposition⟩ := h.passed
  have htext' : text.toList = (passed ++ taken) ++ rest := by rw [htext, List.append_assoc]
  have hsize : byteSize (passed ++ taken) = cur.position + byteSize taken := by
    rw [byteSize_append, hposition]
  refine ⟨⟨passed ++ taken, htext', hsize⟩, ?_, ?_⟩
  · intro p hp
    rcases List.mem_cons.1 hp with rfl | hp
    · exact hsize ▸ isBoundary_of_split htext'
    · exact h.boundaries p hp
  · refine List.pairwise_cons.2 ⟨fun p hp => ?_, h.forward⟩
    have hle : p ≤ cur.position := by
      rcases List.mem_cons.1 hp with rfl | hp
      · exact Nat.le_refl _
      · exact (List.pairwise_cons.1 h.forward).1 p hp
    show p ≤ cur.position + byteSize taken
    omega

/-! ## What a scan comes to -/

def Fault.Within (text : List Char) : Fault → Prop
  | .unexpected found after => found :: after <:+ text
  | _ => True

theorem Cursor.Before.within (h : cur.Before text (c :: rest)) :
    Fault.Within text.toList (.unexpected c rest) := by
  obtain ⟨passed, htext, -⟩ := h.passed
  exact ⟨passed, htext.symm⟩

theorem Cursor.Before.ofFault_unexpected (h : cur.Before text (c :: rest)) :
    SnbtError.ofFault text.toList (.unexpected c rest) = .unexpected c cur.position := by
  rw [SnbtError.ofFault, h.position_eq]

inductive Meets (text : String) : Except Fault (α × List Char) → Except Halt α × Cursor → Prop
  | ok {x : α} {rest : List Char} {cur : Cursor} (h : cur.Before text rest) :
      Meets text (.ok (x, rest)) (.ok x, cur)
  | error {fault : Fault} {rest : List Char} {cur : Cursor} (h : cur.Before text rest)
      (hwithin : fault.Within text.toList) :
      Meets text (.error fault) (.error (.refused (SnbtError.ofFault text.toList fault)), cur)

/-- From before the rest, the scan comes to the outcome. -/
def Scans (text : String) (m : Scanner α) (rest : List Char)
    (outcome : Except Fault (α × List Char)) : Prop :=
  ∀ cur : Cursor, cur.Before text rest → Meets text outcome (m.runAt text cur)

theorem Meets.exists_cursor {x : α} {result : Except Halt α × Cursor}
    (h : Meets text (.ok (x, rest)) result) : ∃ cur, result = (.ok x, cur) ∧ cur.Before text rest := by
  cases h with
  | ok h => exact ⟨_, rfl, h⟩

theorem Meets.within {fault : Fault} {result : Except Halt α × Cursor}
    (h : Meets text (.error fault) result) : fault.Within text.toList := by
  cases h with
  | error _ hwithin => exact hwithin

namespace Scans

variable {m : Scanner α} {k : α → Scanner β} {x : α} {outcome : Except Fault (α × List Char)}
  {after : Except Fault (β × List Char)} {fault : Fault}

theorem pure (x : α) (rest : List Char) : Scans text (pure x) rest (.ok (x, rest)) :=
  fun _ h => .ok h

theorem ok_bind (h : Scans text m s (.ok (x, r))) (hk : Scans text (k x) r after) :
    Scans text (m >>= k) s after := by
  intro cur hcur
  obtain ⟨next, hrun, hnext⟩ := (h cur hcur).exists_cursor
  rw [Scanner.runAt_bind_ok hrun]
  exact hk next hnext

theorem error_bind (h : Scans text m s (.error fault)) :
    Scans text (m >>= k) s (.error fault) := by
  intro cur hcur
  have hmeets := h cur hcur
  generalize hrun : m.runAt text cur = result at hmeets
  cases hmeets with
  | error hnext hwithin =>
    rw [Scanner.runAt_bind_error hrun]
    exact .error hnext hwithin

theorem map (h : Scans text m s outcome) (f : α → β) :
    Scans text (m >>= fun x => Pure.pure (f x)) s (outcome.map fun (x, r) => (f x, r)) := by
  match outcome with
  | .ok (x, r) => exact h.ok_bind (.pure (f x) r)
  | .error fault => exact h.error_bind

end Scans

namespace Scanner

variable {m : Scanner α} {k : α → Scanner β} {x : α} {after : Except Fault (α × List Char)}
  {bound : Nat}

theorem scans_unexpectedEnd (rest : List Char) :
    Scans text (refuse .unexpectedEnd : Scanner α) rest (.error .unexpectedEnd) :=
  fun _ h => .error h trivial

theorem scans_checked {piece? : Option α} (h : piece? = some x) (rest : List Char) :
    Scans text (checked piece?) rest (.ok (x, rest)) := by
  rw [h]
  exact .pure x rest

/-- A loop has more turns than there are characters left. -/
theorem scans_loopBound {k : Nat → Scanner α}
    (h : ∀ bound, rest.length < bound → Scans text (k bound) rest after) :
    Scans text (loopBound >>= k) rest after :=
  fun cur hcur => h _ (Nat.lt_succ_of_le hcur.length_le) cur hcur

/-! ## Moving the cursor -/

theorem scans_remaining (rest : List Char) :
    Scans text remaining rest (.ok (String.ofList rest, rest)) := by
  intro cur hcur
  obtain ⟨passed, htext, hposition⟩ := hcur.passed
  have hcut : cut? text cur.position text.utf8ByteSize = some (String.ofList rest) := by
    rw [← hposition]
    exact cut?_to_end htext
  rw [remaining, runAt_read_bind, runAt_position_bind]
  exact scans_checked hcut rest cur hcur

theorem scans_peek (rest : List Char) : Scans text peek rest (.ok (rest.head?, rest)) := by
  refine (scans_remaining rest).ok_bind ?_
  rw [String.toList_ofList]
  exact .pure _ _

theorem scans_advance (taken rest : List Char) :
    Scans text (advance (byteSize taken)) (taken ++ rest) (.ok ((), rest)) :=
  fun _ h => .ok h.moveTo

theorem scans_advance_char (c : Char) (rest : List Char) :
    Scans text (advance c.utf8Size) (c :: rest) (.ok ((), rest)) :=
  scans_advance [c] rest

theorem scans_bump_nil : Scans text bump [] (.ok (none, [])) :=
  (scans_peek []).ok_bind (.pure none [])

theorem scans_bump_cons (c : Char) (rest : List Char) :
    Scans text bump (c :: rest) (.ok (some c, rest)) :=
  (scans_peek (c :: rest)).ok_bind ((scans_advance_char c rest).ok_bind (.pure _ rest))

theorem scans_skipWhile (skips : Char → Bool) (h : rest.length < bound) :
    Scans text (skipWhile skips bound) rest (.ok ((), rest.dropWhile skips)) := by
  induction bound generalizing rest with
  | zero => omega
  | succ bound ih =>
    refine (scans_peek rest).ok_bind ?_
    cases rest with
    | nil => exact .pure () []
    | cons c rest =>
      rw [List.length_cons] at h
      rw [List.dropWhile_cons]
      dsimp only [List.head?_cons]
      split
      · exact (scans_advance_char c rest).ok_bind (ih (by omega))
      · exact .pure () _

theorem scans_skipAll (skips : Char → Bool) (rest : List Char) :
    Scans text (skipAll skips) rest (.ok ((), rest.dropWhile skips)) :=
  scans_loopBound fun _ h => scans_skipWhile skips h

theorem length_skipBlank_le (cs : List Char) : (Text.skip Text.isBlank cs).length ≤ cs.length :=
  (List.dropWhile_suffix Text.isBlank).length_le

theorem scans_skipBlank (rest : List Char) :
    Scans text skipBlank rest (.ok ((), Text.skip Text.isBlank rest)) :=
  scans_skipAll Text.isBlank rest

/-! ## Words, texts in quotes and keys -/

theorem scans_unexpected (rest : List Char) :
    Scans text (unexpected : Scanner α) rest (.error (Snbt.unexpected rest)) := by
  refine (scans_peek rest).ok_bind ?_
  cases rest with
  | nil => exact scans_unexpectedEnd []
  | cons c rest =>
    intro cur hcur
    have hmeets : @Meets α text _ _ := .error hcur hcur.within
    rwa [hcur.ofFault_unexpected] at hmeets

theorem scans_expect (c : Char) (rest : List Char) :
    Scans text (expect c) rest ((Snbt.expect c rest).map fun r => ((), r)) := by
  refine (scans_skipBlank rest).ok_bind ((scans_peek _).ok_bind ?_)
  rw [Snbt.expect]
  cases Text.skip Text.isBlank rest with
  | nil => exact scans_unexpected []
  | cons d rest =>
    by_cases hd : d = c
    · rw [hd, List.head?_cons, if_pos rfl]
      dsimp only
      rw [if_pos rfl]
      exact scans_advance_char c rest
    · rw [List.head?_cons, if_neg (by simpa using hd)]
      dsimp only
      rw [if_neg hd]
      exact scans_unexpected (d :: rest)

theorem scans_bare (rest : List Char) :
    Scans text bare rest
      (.ok (String.ofList (rest.takeWhile isBare), rest.dropWhile isBare)) := by
  intro cur hcur
  obtain ⟨next, hrun, hnext⟩ := (scans_skipAll isBare rest cur hcur).exists_cursor
  obtain ⟨passed, htext, hposition⟩ := hcur.passed
  rw [← List.takeWhile_append_dropWhile (p := isBare) (l := rest), ← List.append_assoc] at htext
  have hlast : byteSize passed + byteSize (rest.takeWhile isBare) = next.position := by
    rw [hnext.position_eq, htext, byteSize_append, byteSize_append]
    omega
  have hcut := cut?_of_split htext
  rw [hlast, hposition] at hcut
  rw [bare, runAt_position_bind, runAt_bind_ok hrun]
  exact scans_checked hcut _ next hnext

theorem ofList_takeWhile_ne (h : isBare c = true) :
    String.ofList ((c :: rest).takeWhile isBare) ≠ "" := by
  rw [List.takeWhile_cons_of_pos h]
  simp

theorem takeWhile_of_not_isBare (h : isBare c = false) (rest : List Char) :
    String.ofList ((c :: rest).takeWhile isBare) = "" ∧ (c :: rest).dropWhile isBare = c :: rest := by
  rw [List.takeWhile_cons_of_neg (by simp [h]), List.dropWhile_cons_of_neg (by simp [h])]
  exact ⟨rfl, rfl⟩

theorem scans_bareKey (rest : List Char) :
    Scans text bareKey rest
      ((Snbt.bare rest).map fun (word, r) => (String.ofList word, r)) := by
  refine (scans_bare rest).ok_bind ?_
  cases rest with
  | nil => exact scans_unexpected []
  | cons c rest =>
    rw [Snbt.bare]
    cases hc : isBare c with
    | true =>
      rw [if_neg (ofList_takeWhile_ne hc), if_pos rfl, List.takeWhile_cons_of_pos hc,
        List.dropWhile_cons_of_pos hc]
      exact .pure _ _
    | false =>
      obtain ⟨hword, hrest⟩ := takeWhile_of_not_isBare hc rest
      rw [if_pos hword, if_neg (by simp), hrest]
      exact scans_unexpected (c :: rest)

theorem scans_quotedRest (quote : Char) (h : rest.length < bound) :
    Scans text (quotedRest quote bound) rest (Snbt.quoted quote rest) := by
  induction bound generalizing rest with
  | zero => omega
  | succ bound ih =>
    cases rest with
    | nil => exact scans_bump_nil.ok_bind (scans_unexpectedEnd [])
    | cons c rest =>
      rw [List.length_cons] at h
      refine (scans_bump_cons c rest).ok_bind ?_
      by_cases hslash : c = '\\'
      · subst hslash
        dsimp only
        rw [if_pos rfl]
        cases rest with
        | nil => exact scans_bump_nil.ok_bind (scans_unexpectedEnd [])
        | cons d rest =>
          rw [List.length_cons] at h
          refine (scans_bump_cons d rest).ok_bind ?_
          rw [Snbt.quoted]
          exact (ih (by omega)).map _
      · dsimp only
        rw [if_neg hslash, quoted_cons hslash]
        split
        · exact .pure [] rest
        · exact (ih (by omega)).map _

theorem scans_quoted (quote : Char) (rest : List Char) :
    Scans text quoted (quote :: rest)
      ((Snbt.quoted quote rest).map fun (spelled, r) => (String.ofList spelled, r)) :=
  (scans_bump_cons quote rest).ok_bind
    (scans_loopBound fun _ h => (scans_quotedRest quote h).map String.ofList)

theorem scans_key (rest : List Char) : Scans text key rest (Snbt.key rest) := by
  refine (scans_skipBlank rest).ok_bind ((scans_peek _).ok_bind ?_)
  rw [Snbt.key, keyChars]
  cases Text.skip Text.isBlank rest with
  | nil => exact scans_bareKey []
  | cons c rest =>
    dsimp only [List.head?_cons]
    split
    · exact scans_quoted c rest
    · exact scans_bareKey (c :: rest)

theorem utf8Size_of_isBare (h : isBare c = true) : c.utf8Size = 1 := by
  have hcode := code_of_isBare h
  have hnat : c.val.toNat = c.toNat := rfl
  rw [Char.utf8Size_eq_one_iff, UInt32.le_iff_toNat_le]
  show c.val.toNat ≤ 127
  omega

theorem ofList_eq_iff {word : List Char} {spelled : String} :
    String.ofList word = spelled ↔ word = spelled.toList :=
  ⟨fun h => by rw [← h, String.toList_ofList], fun h => by rw [h, String.ofList_toList]⟩

/-- A bare last character takes one byte, so a word is cut at a boundary before it. -/
theorem cut?_last (h : isBare c = true) (before : List Char) :
    let word := String.ofList (before ++ [c])
    cut? word 0 (word.utf8ByteSize - 1) = some (String.ofList before) ∧
      cut? word (word.utf8ByteSize - 1) word.utf8ByteSize = some (String.ofList [c]) := by
  intro word
  have hword : word.toList = before ++ [c] := String.toList_ofList
  have hlast : word.utf8ByteSize - 1 = byteSize before := by
    rw [← byteSize_toList, hword, byteSize_append, byteSize, utf8Size_of_isBare h]
    rfl
  rw [hlast]
  refine ⟨?_, cut?_to_end hword⟩
  exact cut?_eq_some_iff.2 ⟨[], [c], by simp [hword], rfl, by simp [byteSize]⟩

theorem number?_concat (body : List Char) (suffix : Char) :
    number? (body ++ [suffix]) =
      (suffixed? body suffix <|> int? (body ++ [suffix]) <|> pointed? (body ++ [suffix])) := by
  rw [number?, List.getLast?_concat, List.dropLast_concat]
  rfl

theorem scans_classify {word : List Char} (h : IsBareWord word) (rest : List Char) :
    Scans text (classify (String.ofList word)) rest (.ok (Snbt.classify word, rest)) := by
  simp only [classify, Snbt.classify, ofList_eq_iff, String.toList_ofList]
  split
  · exact .pure _ rest
  split
  · exact .pure _ rest
  split
  · obtain ⟨body, suffix, rfl⟩ := (List.eq_nil_or_concat' word).resolve_left h.1
    obtain ⟨hbody, hsuffix⟩ := cut?_last (h.2 suffix (by simp)) body
    refine (scans_checked hbody rest).ok_bind ((scans_checked hsuffix rest).ok_bind ?_)
    rw [number?_concat, String.toList_ofList, String.toList_ofList, List.head?_cons,
      Option.bind_some]
    exact .pure _ rest
  · exact .pure _ rest

theorem isBareWord_takeWhile (h : isBare c = true) (rest : List Char) :
    IsBareWord ((c :: rest).takeWhile isBare) := by
  refine ⟨?_, fun d hd => List.all_eq_true.1 List.all_takeWhile d hd⟩
  rw [List.takeWhile_cons_of_pos h]
  exact List.cons_ne_nil _ _

/-- Without a bare character the position is that at which the word was looked for. -/
theorem scans_putBack (h : rest.dropWhile isBare = rest) (hcur : cur.Before text rest)
    {next : Cursor} (hnext : next.Before text (rest.dropWhile isBare)) :
    @Meets α text (.error (Snbt.unexpected rest))
      ((do moveTo cur.position; unexpected : Scanner α).runAt text next) := by
  rw [h] at hnext
  have hposition : cur.position = next.position := by
    rw [hcur.position_eq, hnext.position_eq]
  have hstay : (next.moveTo (next.position + byteSize [])).Before text rest :=
    Cursor.Before.moveTo hnext
  rw [hposition, runAt_bind_ok (runAt_moveTo _ _ _)]
  exact scans_unexpected rest _ hstay

theorem scans_bareValue (rest : List Char) :
    Scans text bareValue rest
      ((Snbt.bare rest).map fun (word, r) => (Snbt.classify word, r)) := by
  intro cur hcur
  obtain ⟨next, hrun, hnext⟩ := (scans_bare rest cur hcur).exists_cursor
  rw [bareValue, runAt_position_bind, runAt_bind_ok hrun]
  cases rest with
  | nil => exact scans_putBack rfl hcur hnext
  | cons c rest =>
    rw [Snbt.bare]
    cases hc : isBare c with
    | true =>
      have hword := scans_classify (isBareWord_takeWhile hc rest) _ next hnext
      rw [List.takeWhile_cons_of_pos hc, List.dropWhile_cons_of_pos hc] at hword
      rw [if_pos rfl]
      dsimp only
      rw [if_neg (ofList_takeWhile_ne hc), List.takeWhile_cons_of_pos hc]
      exact hword
    | false =>
      obtain ⟨hword, hrest⟩ := takeWhile_of_not_isBare hc rest
      rw [if_neg (by simp)]
      dsimp only
      rw [if_pos hword]
      exact scans_putBack hrest hcur hnext

/-! ## Compounds, lists and arrays -/

theorem scans_bump_refuse {k : Option Char → Scanner α}
    (hk : k (some c) = do refuse (.unexpected c (← back c.utf8Size))) :
    Scans text (bump >>= k) (c :: rest) (.error (.unexpected c rest)) := by
  intro cur hcur
  obtain ⟨next, hrun, hnext⟩ := (scans_bump_cons c rest cur hcur).exists_cursor
  obtain ⟨passed, htext, hposition⟩ := hcur.passed
  have hmoved : next.position = cur.position + c.utf8Size := by
    rw [hnext.position_eq, ← hposition, htext, byteSize_append, byteSize]
    omega
  have hback : (back c.utf8Size).runAt text next = (.ok cur.position, next) := by
    rw [back, runAt_position_bind, hmoved, if_pos (Nat.le_add_left _ _), Nat.add_sub_cancel]
    rfl
  have hmeets : @Meets α text _ _ := .error hnext hcur.within
  rw [hcur.ofFault_unexpected] at hmeets
  rwa [runAt_bind_ok hrun, hk, runAt_bind_ok hback]

structure ReadsPart (parse : Parser α) : Prop where
  skips : SkipsBlank parse
  nil : parse [] = .error .unexpectedEnd
  le : ∀ {s x r}, parse s = .ok (x, r) → r.length ≤ s.length

section Items

variable {item : Scanner α} {parse : Parser α} {close : Char} {limit turns : Nat}

theorem items_of_ok {afterItem : List Char} (h : parse s = .ok (x, afterItem)) :
    Snbt.items parse close (bound + 1) s =
      match Text.skip Text.isBlank afterItem with
      | [] => .error .unexpectedEnd
      | c :: rest =>
        if c = ',' then
          (Snbt.items parse close bound rest).map fun (more, r) => (x :: more, r)
        else if c = close then .ok ([x], rest)
        else .error (.unexpected c rest) := by
  simp only [Snbt.items, h, bind, Except.bind]
  cases Text.skip Text.isBlank afterItem with
  | nil => rfl
  | cons c rest => cases Snbt.items parse close bound rest <;> rfl

/-- The induction is on the turns of the loop; each passes a comma at least. -/
theorem scans_items (hpart : ReadsPart parse)
    (hitem : ∀ s, s.length < limit → Scans text item s (parse s)) (hturns : rest.length < turns)
    (hbound : rest.length ≤ bound) (hlimit : rest.length < limit) :
    Scans text (items item close turns) rest (Snbt.items parse close bound rest) := by
  induction turns generalizing bound rest with
  | zero => omega
  | succ turns ih =>
    have hfirst := hitem rest hlimit
    cases bound with
    | zero =>
      obtain rfl := List.length_eq_zero_iff.1 (Nat.le_zero.1 hbound)
      rw [hpart.nil] at hfirst
      exact hfirst.error_bind
    | succ bound =>
      cases hparse : parse rest with
      | error fault =>
        rw [hparse] at hfirst
        rw [Snbt.items, hparse]
        exact hfirst.error_bind
      | ok p =>
        obtain ⟨x, afterItem⟩ := p
        rw [hparse] at hfirst
        refine hfirst.ok_bind ((scans_skipBlank afterItem).ok_bind ?_)
        have hle := hpart.le hparse
        have hblanks := length_skipBlank_le afterItem
        rw [items_of_ok hparse]
        cases hskip : Text.skip Text.isBlank afterItem with
        | nil => exact scans_bump_nil.ok_bind (scans_unexpectedEnd [])
        | cons c r =>
          rw [hskip, List.length_cons] at hblanks
          dsimp only
          split
          · rename_i hcomma
            have hmore : Scans text (items item close turns) r (Snbt.items parse close bound r) :=
              ih (by omega) (by omega) (by omega)
            refine (scans_bump_cons c r).ok_bind ?_
            dsimp only
            rw [if_pos hcomma]
            exact hmore.map (x :: ·)
          split
          · rename_i hcomma hclose
            refine (scans_bump_cons c r).ok_bind ?_
            dsimp only
            rw [if_neg hcomma, if_pos hclose]
            exact .pure [x] r
          · rename_i hcomma hclose
            refine scans_bump_refuse ?_
            dsimp only
            rw [if_neg hcomma, if_neg hclose]

theorem items_skipsBlank (hpart : ReadsPart parse) : SkipsBlank (Snbt.items parse close bound) := by
  intro cs
  cases bound with
  | zero => rfl
  | succ bound => rw [Snbt.items, Snbt.items, hpart.skips]

theorem scans_body (hpart : ReadsPart parse)
    (hitem : ∀ s, s.length < limit → Scans text item s (parse s)) (hclose : Closes close)
    (hlimit : rest.length < limit) :
    Scans text (body item close) rest (Snbt.body parse close rest) := by
  have hblanks := length_skipBlank_le rest
  have hitems : Scans text (do items item close (← loopBound)) (Text.skip Text.isBlank rest)
      (Snbt.items parse close rest.length rest) := by
    rw [items_skipsBlank hpart]
    exact scans_loopBound fun _ h => scans_items hpart hitem h hblanks (by omega)
  refine (scans_skipBlank rest).ok_bind ((scans_peek _).ok_bind ?_)
  rw [Snbt.body]
  generalize Text.skip Text.isBlank rest = opened at hitems
  cases opened with
  | nil => exact hitems
  | cons c r =>
    have hsize : close.utf8Size = 1 := by rcases hclose with rfl | rfl <;> rfl
    by_cases hc : c = close
    · rw [hc, List.head?_cons, if_pos rfl, ← hsize]
      dsimp only
      rw [if_pos rfl]
      exact (scans_advance_char close r).ok_bind (.pure [] r)
    · rw [List.head?_cons, if_neg (by simpa using hc)]
      dsimp only
      rw [if_neg hc]
      exact hitems

end Items

theorem value_readsPart (bound : Nat) : ReadsPart (Snbt.value bound) where
  skips := value_skipsBlank bound
  nil := by cases bound <;> rfl
  le h := by
    obtain ⟨taken, rfl, -⟩ := denotes_of_value h
    simp

theorem entry_readsPart {read : Parser Tag} (h : ReadsPart read) : ReadsPart (Snbt.entry read) where
  skips cs := by rw [Snbt.entry, Snbt.entry, key_skipsBlank]
  nil := rfl
  le hread := by
    simp only [Snbt.entry, bind_eq_ok] at hread
    obtain ⟨⟨k, afterKey⟩, hkey, afterColon, hcolon, ⟨v, afterValue⟩, hvalue, heq⟩ := hread
    cases heq
    obtain ⟨keyText, rfl, -⟩ := denotesKey_of_key hkey
    obtain ⟨beforeColon, -, rfl⟩ := expect_eq_ok hcolon
    have hle := h.le hvalue
    simp only [List.length_append, List.length_cons]
    omega

section Values

variable {scanner : Scanner Tag} {read : Parser Tag} {limit : Nat}

theorem scans_entry (hvalue : ∀ s, s.length < limit → Scans text scanner s (read s))
    (hlimit : rest.length < limit) : Scans text (entry scanner) rest (Snbt.entry read rest) := by
  have hkey : Scans text key rest _ := scans_key rest
  cases hread : Snbt.key rest with
  | error fault =>
    rw [hread] at hkey
    simp only [Snbt.entry, hread]
    exact hkey.error_bind
  | ok p =>
    obtain ⟨k, afterKey⟩ := p
    obtain ⟨keyText, rfl, -⟩ := denotesKey_of_key hread
    rw [hread] at hkey
    refine hkey.ok_bind ?_
    have hcolon : Scans text (expect ':') afterKey _ := scans_expect ':' afterKey
    cases hexpect : Snbt.expect ':' afterKey with
    | error fault =>
      rw [hexpect] at hcolon
      simp only [Snbt.entry, hread, hexpect, bind, Except.bind]
      exact hcolon.error_bind
    | ok afterColon =>
      obtain ⟨beforeColon, -, rfl⟩ := expect_eq_ok hexpect
      rw [hexpect] at hcolon
      simp only [List.length_append, List.length_cons] at hlimit
      simp only [Snbt.entry, hread, hexpect, bind, Except.bind]
      refine hcolon.ok_bind ?_
      have hmap := (hvalue afterColon (by omega)).map (Prod.mk k)
      cases hv : read afterColon with
      | error fault => rwa [hv] at hmap
      | ok p => rwa [hv] at hmap

theorem scans_compound (hread : ReadsPart read)
    (hvalue : ∀ s, s.length < limit → Scans text scanner s (read s)) (hlimit : rest.length < limit) :
    Scans text (compound scanner) ('\x7b' :: rest)
      ((Snbt.body (Snbt.entry read) '\x7d' rest).map fun (entries, r) =>
        (.compound (Table.ofEntries entries), r)) := by
  have hopen : Scans text (expect '\x7b') ('\x7b' :: rest) _ := scans_expect _ _
  rw [expect_of_skipBlank (Text.skip_cons (by decide))] at hopen
  refine hopen.ok_bind ?_
  exact (scans_body (entry_readsPart hread) (fun s hs => scans_entry hvalue hs) (.inr rfl)
    hlimit).map fun entries => Tag.compound (Table.ofEntries entries)

/-! Faults of elements tell no character. -/

theorem within_of_listOf {ts : List Tag} {fault : Fault} (h : listOf ts = .error fault)
    (cs : List Char) : fault.Within cs := by
  cases ts with
  | nil => contradiction
  | cons t rest =>
    rw [listOf] at h
    split at h <;> cases h
    trivial

theorem within_of_elementsOf {array : Kind} {read? : Tag → Option α} {ts : List Tag}
    {fault : Fault} (h : elementsOf array read? ts = .error fault) (cs : List Char) :
    fault.Within cs := by
  induction ts with
  | nil => contradiction
  | cons t rest ih =>
    rw [elementsOf] at h
    split at h
    · cases h
      trivial
    · cases hrest : elementsOf array read? rest with
      | error fault' =>
        rw [hrest] at h
        cases h
        exact ih hrest
      | ok vs =>
        rw [hrest] at h
        contradiction

theorem map_eq_error {a : Except Fault α} {f : α → β} {fault : Fault}
    (h : a.map f = .error fault) : a = .error fault := by
  cases a <;> cases h
  rfl

theorem within_of_arrayOf {array : Kind} {ts : List Tag} {fault : Fault}
    (h : arrayOf array ts = .error fault) (cs : List Char) : fault.Within cs := by
  unfold arrayOf at h
  split at h <;> exact within_of_elementsOf (map_eq_error h) cs

theorem scans_settle {made : Except Fault Tag}
    (h : ∀ fault, made = .error fault → fault.Within text.toList) (rest : List Char) :
    Scans text (settle made) rest (made.map fun t => (t, rest)) := by
  cases made with
  | ok t => exact .pure t rest
  | error fault => exact fun cur hcur => .error hcur (h fault rfl)

theorem scans_elements {make : List Tag → Except Fault Tag} (hread : ReadsPart read)
    (hvalue : ∀ s, s.length < limit → Scans text scanner s (read s)) (hlimit : rest.length < limit)
    (hmake : ∀ ts fault, make ts = .error fault → fault.Within text.toList) :
    Scans text (do settle (make (← body scanner ']'))) rest
      (do
        let (elements, r) ← Snbt.body read ']' rest
        let t ← make elements
        return (t, r)) := by
  have hbody := scans_body hread hvalue (.inl rfl) hlimit
  cases hparse : Snbt.body read ']' rest with
  | error fault =>
    rw [hparse] at hbody
    exact hbody.error_bind
  | ok p =>
    obtain ⟨elements, r⟩ := p
    rw [hparse] at hbody
    refine hbody.ok_bind ?_
    have hsettle := scans_settle (hmake elements) r
    simp only [bind, Except.bind]
    cases hmade : make elements <;> rwa [hmade] at hsettle

theorem markedArray?_eq_some {mark : String} {array : Kind} (h : markedArray? mark = some array) :
    ∃ c ∈ ['B', 'I', 'L'], mark = String.ofList [c, ';'] ∧ array = markKind c := by
  unfold markedArray? at h
  split at h
  · cases h
    exact ⟨'B', by decide, ‹_›, rfl⟩
  split at h
  · cases h
    exact ⟨'I', by decide, ‹_›, rfl⟩
  split at h
  · cases h
    exact ⟨'L', by decide, ‹_›, rfl⟩
  · contradiction

theorem markedArray?_mark {mark : Char} (h : mark ∈ ['B', 'I', 'L']) :
    byteSize [mark, ';'] = 2 ∧
      markedArray? (String.ofList [mark, ';']) = some (markKind mark) := by
  simp only [List.mem_cons, List.not_mem_nil, or_false] at h
  rcases h with rfl | rfl | rfl <;> exact ⟨rfl, rfl⟩

theorem markedArray?_eq (cs : List Char) :
    (cut? (String.ofList cs) 0 2).bind markedArray? = (arrayMark? cs).map Prod.fst := by
  cases hmark : arrayMark? cs with
  | some p =>
    obtain ⟨array, rest⟩ := p
    obtain ⟨mark, hmem, rfl, rfl⟩ := arrayMark?_eq_some hmark
    obtain ⟨hsize, hkind⟩ := markedArray?_mark hmem
    have hcut : cut? (String.ofList (mark :: ';' :: rest)) 0 2 = some (String.ofList [mark, ';']) :=
      cut?_eq_some_iff.2 ⟨[], rest, by simp, rfl, by simp [hsize, byteSize]⟩
    rw [hcut, Option.bind_some, hkind, Option.map_some]
  | none =>
    rw [Option.map_none, Option.bind_eq_none_iff]
    intro piece hpiece
    obtain ⟨before, after, hcs, hbefore, -⟩ := cut?_eq_some_iff.1 hpiece
    obtain rfl : before = [] := by
      by_contra hne
      have hpos := byteSize_pos hne
      omega
    by_contra hsome
    obtain ⟨array, harray⟩ := Option.ne_none_iff_exists'.1 hsome
    obtain ⟨c, hmem, rfl, -⟩ := markedArray?_eq_some harray
    rw [String.toList_ofList, String.toList_ofList] at hcs
    rw [hcs] at hmark
    simp only [List.nil_append, List.cons_append, arrayMark?_mark hmem] at hmark
    contradiction

theorem scans_listOrArray (hread : ReadsPart read)
    (hvalue : ∀ s, s.length < limit → Scans text scanner s (read s)) (hlimit : rest.length < limit) :
    Scans text (listOrArray scanner) ('[' :: rest) (Snbt.listOrArray read rest) := by
  have hopen : Scans text (expect '[') ('[' :: rest) _ := scans_expect _ _
  rw [expect_of_skipBlank (Text.skip_cons (by decide))] at hopen
  refine hopen.ok_bind ((scans_remaining rest).ok_bind ?_)
  rw [markedArray?_eq, Snbt.listOrArray]
  cases hmark : arrayMark? rest with
  | none => exact scans_elements hread hvalue hlimit fun _ _ h => within_of_listOf h _
  | some p =>
    obtain ⟨array, inner⟩ := p
    obtain ⟨mark, hmem, rfl, rfl⟩ := arrayMark?_eq_some hmark
    have hadvance : Scans text (advance (byteSize [mark, ';'])) (mark :: ';' :: inner) _ :=
      scans_advance [mark, ';'] inner
    rw [(markedArray?_mark hmem).1] at hadvance
    simp only [List.length_cons] at hlimit
    refine hadvance.ok_bind ?_
    exact scans_elements hread hvalue (by omega) fun _ _ h => within_of_arrayOf h _

end Values

/-- The induction is on the bound; what stands inside brackets is shorter than the whole. -/
theorem scans_value (h : rest.length < bound) :
    Scans text (value bound) rest (Snbt.value bound rest) := by
  induction bound generalizing rest with
  | zero => omega
  | succ bound ih =>
    have hblanks := length_skipBlank_le rest
    refine (scans_skipBlank rest).ok_bind ((scans_peek _).ok_bind ?_)
    rw [Snbt.value]
    cases hskip : Text.skip Text.isBlank rest with
    | nil => exact scans_unexpectedEnd []
    | cons c r =>
      rw [hskip, List.length_cons] at hblanks
      have hread := value_readsPart bound
      dsimp only [List.head?_cons]
      split
      · rename_i hbrace
        rw [hbrace]
        exact scans_compound hread (fun s hs => ih hs) (by omega)
      split
      · rename_i hbracket
        rw [hbracket]
        exact scans_listOrArray hread (fun s hs => ih hs) (by omega)
      split
      · have hquoted : Scans text _ (c :: r) _ := (scans_quoted c r).map Tag.string
        cases hq : Snbt.quoted c r <;> rwa [hq] at hquoted
      · exact scans_bareValue (c :: r)

end Scanner

end BlockConvert.Snbt
