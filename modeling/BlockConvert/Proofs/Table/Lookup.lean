import BlockConvert.Table
import Mathlib.Data.List.Forall2

set_option autoImplicit false

/-!
# What look-ups find

In a table that is in order every entry is found under its key, and the table is known by what is
found in it. After a run of writes a look-up finds one of the entries written, or what the table
held before.
-/

namespace BlockConvert

namespace Table

variable {κ α : Type} [DecidableEq κ] [KeyOrder κ] {table entries : List (κ × α)} {key : κ} {v : α}

theorem get?_of_mem (hsorted : Sorted table) (h : (key, v) ∈ table) :
    get? table key = some v := by
  induction table with
  | nil => simp at h
  | cons e rest ih =>
    obtain ⟨k, w⟩ := e
    obtain ⟨hbefore, hrest⟩ := List.pairwise_cons.1 hsorted
    rw [get?_cons]
    rcases List.mem_cons.1 h with heq | hmem
    · cases heq
      rw [if_pos rfl]
    · have hne : k ≠ key := KeyOrder.ne_of_before (hbefore (key, v) hmem)
      rw [if_neg hne, ih hrest hmem]

theorem get?_eq_none (h : ∀ e ∈ table, KeyOrder.before key e.1 = true) :
    get? table key = none := by
  cases hget : get? table key with
  | none => rfl
  | some v => simpa [KeyOrder.before_irrefl] using h _ (mem_of_get?_eq_some hget)

theorem get?_cons_of_before {e : κ × α} (hsorted : Sorted (e :: table))
    (hkey : KeyOrder.before key e.1 = true) : get? (e :: table) key = none := by
  have hbefore := (List.pairwise_cons.1 hsorted).1
  refine get?_eq_none fun d hd => ?_
  rcases List.mem_cons.1 hd with rfl | hmem
  · exact hkey
  · exact KeyOrder.before_trans hkey (hbefore d hmem)

/-- Tables that are in order and answer alike are the same. -/
theorem eq_of_get?_eq {other : List (κ × α)} (hsorted : Sorted table) (hother : Sorted other)
    (h : ∀ key, get? table key = get? other key) : table = other := by
  induction table generalizing other with
  | nil =>
    cases other with
    | nil => rfl
    | cons d rest =>
      have hd := h d.1
      simp [get?] at hd
  | cons e rest ih =>
    cases other with
    | nil =>
      have he := h e.1
      simp [get?] at he
    | cons d rest' =>
      obtain ⟨k, v⟩ := e
      obtain ⟨l, w⟩ := d
      have hk := h k
      have hl := h l
      rcases KeyOrder.before_total k l with hkl | rfl | hlk
      · rw [get?_cons_of_before hother hkl, get?_cons, if_pos rfl] at hk
        contradiction
      · obtain ⟨hbefore, hrest⟩ := List.pairwise_cons.1 hsorted
        obtain ⟨hbefore', hrest'⟩ := List.pairwise_cons.1 hother
        have hsame : rest = rest' := by
          refine ih hrest hrest' fun key => ?_
          by_cases hkey : k = key
          · subst hkey
            rw [get?_eq_none hbefore, get?_eq_none hbefore']
          · simpa [get?_cons, hkey] using h key
        rw [get?_cons, get?_cons, if_pos rfl, if_pos rfl] at hk
        rw [hsame, Option.some.inj hk]
      · rw [get?_cons_of_before hsorted hlk, get?_cons, if_pos rfl] at hl
        contradiction

omit [KeyOrder κ] in
theorem get?_append (table other : List (κ × α)) (key : κ) :
    get? (table ++ other) key = (get? table key).or (get? other key) := by
  induction table with
  | nil => rfl
  | cons e rest ih =>
    rw [List.cons_append, get?_cons, get?_cons, ih]
    split <;> rfl

/-- After a run of writes the last one to a key is found. -/
theorem get?_extend (table entries : List (κ × α)) (key : κ) :
    get? (extend table entries) key = (get? entries.reverse key).or (get? table key) := by
  induction entries generalizing table with
  | nil => rfl
  | cons e rest ih =>
    have hrest : extend table (e :: rest) = extend (insert e.1 e.2 table) rest := rfl
    rw [hrest, ih, get?_insert, List.reverse_cons, get?_append, Option.or_assoc, get?_cons]
    congr 1
    split <;> rfl

theorem get?_ofEntries (entries : List (κ × α)) (key : κ) :
    get? (ofEntries entries) key = get? entries.reverse key := by
  rw [ofEntries, get?_extend]
  exact Option.or_none

theorem mem_or_get?_of_extend (h : get? (extend table entries) key = some v) :
    (key, v) ∈ entries ∨ get? table key = some v := by
  induction entries generalizing table with
  | nil => exact .inr h
  | cons e rest ih =>
    rcases ih h with hmem | hget
    · exact .inl (List.mem_cons_of_mem _ hmem)
    · rw [get?_insert] at hget
      split at hget
      · rename_i hkey
        refine .inl ?_
        rw [← hkey, ← Option.some.inj hget]
        simp
      · exact .inr hget

theorem mem_of_mem_ofEntries {e : κ × α} (h : e ∈ ofEntries entries) : e ∈ entries :=
  (mem_or_get?_of_extend (get?_of_mem (sorted_ofEntries entries) h)).resolve_right nofun

omit [KeyOrder κ] in
theorem get?_map {β : Type} (change : α → β) (table : List (κ × α)) (key : κ) :
    get? (table.map fun e => (e.1, change e.2)) key = (get? table key).map change := by
  induction table with
  | nil => rfl
  | cons e rest ih =>
    rw [List.map_cons, get?_cons, ih, get?_cons]
    split <;> rfl

theorem get?_extend_of_not_mem (h : ∀ v, (key, v) ∉ entries) :
    get? (extend table entries) key = get? table key := by
  induction entries generalizing table with
  | nil => rfl
  | cons e rest ih =>
    have hne : e.1 ≠ key := fun heq => h e.2 (by simp [← heq])
    have hrest : ∀ v, (key, v) ∉ rest := fun v hv => h v (List.mem_cons_of_mem _ hv)
    calc get? (extend (insert e.1 e.2 table) rest) key = get? (insert e.1 e.2 table) key := ih hrest
      _ = get? table key := by rw [get?_insert, if_neg hne]

/-- A key under which only one value is written has that value. -/
theorem get?_extend_of_mem (h : (key, v) ∈ entries) (honly : ∀ w, (key, w) ∈ entries → w = v) :
    get? (extend table entries) key = some v := by
  induction entries generalizing table with
  | nil => contradiction
  | cons e rest ih =>
    have hrest : ∀ w, (key, w) ∈ rest → w = v := fun w hw => honly w (List.mem_cons_of_mem _ hw)
    by_cases hagain : ∃ w, (key, w) ∈ rest
    · obtain ⟨w, hw⟩ := hagain
      exact ih (hrest w hw ▸ hw) hrest
    · rcases List.mem_cons.1 h with rfl | hmem
      · calc get? (extend (insert key v table) rest) key = get? (insert key v table) key :=
              get?_extend_of_not_mem fun w hw => hagain ⟨w, hw⟩
          _ = some v := by rw [get?_insert, if_pos rfl]
      · exact absurd ⟨v, hmem⟩ hagain

omit [DecidableEq κ] [KeyOrder κ] in
theorem keys_eq {β : Type} {other : List (κ × β)}
    (h : List.Forall₂ (fun e d => e.1 = d.1) table other) :
    table.map Prod.fst = other.map Prod.fst := by
  induction h with
  | nil => rfl
  | cons hkey _ ih => rw [List.map_cons, List.map_cons, hkey, ih]

/-- Being in order is about the keys only. -/
theorem sorted_of_keys {β : Type} {other : List (κ × β)}
    (hkeys : other.map Prod.fst = table.map Prod.fst) (h : Sorted table) : Sorted other := by
  rw [Sorted, ← List.pairwise_map (f := Prod.fst) (R := fun a b => KeyOrder.before a b = true)]
    at h ⊢
  rwa [hkeys]

/-- The entries of a table in any order make up the table. -/
theorem ofEntries_of_perm (hsorted : Sorted table) (h : entries.Perm table) :
    ofEntries entries = table := by
  refine eq_of_get?_eq (sorted_ofEntries entries) hsorted fun key => ?_
  cases hget : get? table key with
  | some v =>
    refine get?_extend_of_mem (h.mem_iff.2 (mem_of_get?_eq_some hget)) fun w hw => ?_
    have hother := get?_of_mem hsorted (h.mem_iff.1 hw)
    exact Option.some.inj (hother.symm.trans hget)
  | none =>
    refine get?_extend_of_not_mem fun v hv => ?_
    rw [get?_of_mem hsorted (h.mem_iff.1 hv)] at hget
    contradiction

theorem insert_perm (h : key ∉ table.map Prod.fst) :
    (insert key v table).Perm ((key, v) :: table) := by
  induction table with
  | nil => exact .refl _
  | cons e rest ih =>
    obtain ⟨k, w⟩ := e
    obtain ⟨hne, hrest⟩ : key ≠ k ∧ key ∉ rest.map Prod.fst := by simpa using h
    rw [insert, if_neg hne]
    split
    · exact .refl _
    · exact ((ih hrest).cons (k, w)).trans (.swap (key, v) (k, w) rest)

theorem extend_perm (h : ((table ++ entries).map Prod.fst).Nodup) :
    (extend table entries).Perm (table ++ entries) := by
  induction entries generalizing table with
  | nil => rw [List.append_nil]; exact .refl _
  | cons e rest ih =>
    have hfirst : ((e :: (table ++ rest)).map Prod.fst).Nodup :=
      (List.perm_middle.map Prod.fst).nodup_iff.1 h
    rw [List.map_cons, List.map_append, List.nodup_cons] at hfirst
    have hinsert : (insert e.1 e.2 table).Perm (e :: table) :=
      insert_perm fun hmem => hfirst.1 (List.mem_append_left _ hmem)
    have hperm : (insert e.1 e.2 table ++ rest).Perm (table ++ e :: rest) :=
      (hinsert.append_right rest).trans List.perm_middle.symm
    exact (ih ((hperm.map Prod.fst).nodup_iff.2 h)).trans hperm

/-- A table made of entries with different keys holds just these. -/
theorem ofEntries_perm (h : (entries.map Prod.fst).Nodup) : (ofEntries entries).Perm entries :=
  extend_perm h

/-- The order in which different keys are written does not matter. -/
theorem ofEntries_eq_of_perm {other : List (κ × α)} (hkeys : (entries.map Prod.fst).Nodup)
    (h : entries.Perm other) : ofEntries entries = ofEntries other :=
  (ofEntries_of_perm (sorted_ofEntries entries) (h.symm.trans (ofEntries_perm hkeys).symm)).symm

/-- Only a write of what is there already leaves a table as it was. -/
theorem insert_eq_self_iff (hsorted : Sorted table) :
    insert key v table = table ↔ get? table key = some v := by
  constructor
  · intro h
    rw [← h, get?_insert, if_pos rfl]
  · intro hget
    refine eq_of_get?_eq (sorted_insert key v hsorted) hsorted fun other => ?_
    rw [get?_insert]
    split
    · rename_i hkey
      rw [← hkey, hget]
    · rfl

end Table

namespace Dict

variable {α : Type} {d : Dict α} {entries : List (String × α)} {key : String} {v : α}

theorem get?_of_mem (h : (key, v) ∈ d.entries) : d.get? key = some v :=
  Table.get?_of_mem d.sorted h

theorem mem_or_get?_of_extend (h : (d.extend entries).get? key = some v) :
    (key, v) ∈ entries ∨ d.get? key = some v :=
  Table.mem_or_get?_of_extend h

theorem get?_extend_of_not_mem (h : ∀ v, (key, v) ∉ entries) :
    (d.extend entries).get? key = d.get? key :=
  Table.get?_extend_of_not_mem h

theorem get?_extend_of_mem (h : (key, v) ∈ entries) (honly : ∀ w, (key, w) ∈ entries → w = v) :
    (d.extend entries).get? key = some v :=
  Table.get?_extend_of_mem h honly

/-- Written over one another, tables are read from the last one first. -/
theorem get?_extend_entries (d other : Dict α) (key : String) :
    (d.extend other.entries).get? key = (other.get? key).or (d.get? key) := by
  cases hother : other.get? key with
  | none =>
    rw [get?_extend_of_not_mem, Option.none_or]
    intro v hv
    rw [get?_of_mem hv] at hother
    contradiction
  | some v =>
    refine get?_extend_of_mem (Table.mem_of_get?_eq_some hother) fun w hw => ?_
    exact Option.some.inj ((get?_of_mem hw).symm.trans hother)

theorem eq_of_entries {other : Dict α} (h : d.entries = other.entries) : d = other := by
  cases d
  cases other
  cases h
  rfl

theorem ext_get? {other : Dict α} (h : ∀ key, d.get? key = other.get? key) : d = other :=
  eq_of_entries (Table.eq_of_get?_eq d.sorted other.sorted h)

end Dict

end BlockConvert
