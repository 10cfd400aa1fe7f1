import BlockConvert.Table

set_option autoImplicit false

/-!
# Writing over earlier writes

A write to a place does away with an earlier write there and does not depend on writes elsewhere.
So a run of writes makes good every earlier run that wrote to no other places. Inserting into a
table is such a write, also where the table is out of order. Entries that are in order are inserted
each at the end, so they come out as they were given.
-/

namespace BlockConvert

/-- A write that replaces what was written at its place and leaves other places alone. -/
structure Overwriting {κ α σ : Type} (write : κ → α → σ → σ) : Prop where
  same : ∀ k v w s, write k v (write k w s) = write k v s
  apart : ∀ {k l} v w s, k ≠ l → write k v (write l w s) = write l w (write k v s)

namespace Overwriting

variable {κ α σ : Type} {write : κ → α → σ → σ}

def all (write : κ → α → σ → σ) (s : σ) (ws : List (κ × α)) : σ :=
  ws.foldl (fun s w => write w.1 w.2 s) s

theorem all_cons (s : σ) (k : κ) (v : α) (ws : List (κ × α)) :
    all write s ((k, v) :: ws) = all write (write k v s) ws := rfl

theorem all_write (h : Overwriting write) {ws : List (κ × α)} {k : κ} (v : α) (s : σ)
    (hk : k ∈ ws.map Prod.fst) : all write (write k v s) ws = all write s ws := by
  induction ws generalizing s with
  | nil => simp at hk
  | cons w rest ih =>
    obtain ⟨l, u⟩ := w
    rw [all_cons, all_cons]
    by_cases hkl : k = l
    · subst hkl
      rw [h.same]
    · have hrest : k ∈ rest.map Prod.fst := by simpa [hkl] using hk
      rw [h.apart u v s (Ne.symm hkl), ih _ hrest]

theorem all_all (h : Overwriting write) (xs ws : List (κ × α)) (s : σ)
    (hsub : ∀ x ∈ xs, x.1 ∈ ws.map Prod.fst) : all write (all write s xs) ws = all write s ws := by
  induction xs generalizing s with
  | nil => rfl
  | cons x rest ih =>
    obtain ⟨k, v⟩ := x
    rw [all_cons, ih _ fun y hy => hsub y (List.mem_cons_of_mem _ hy)]
    exact h.all_write v s (hsub (k, v) (by simp))

theorem all_idempotent (h : Overwriting write) (ws : List (κ × α)) (s : σ) :
    all write (all write s ws) ws = all write s ws :=
  h.all_all ws ws s fun _ hx => List.mem_map_of_mem hx

end Overwriting

namespace Table

variable {κ α : Type} [DecidableEq κ] [KeyOrder κ]

theorem insert_cons_self (k : κ) (v w : α) (rest : List (κ × α)) :
    insert k v ((k, w) :: rest) = (k, v) :: rest := by
  simp [insert]

theorem insert_cons_before {k l : κ} (h : KeyOrder.before k l = true) (v w : α)
    (rest : List (κ × α)) : insert k v ((l, w) :: rest) = (k, v) :: (l, w) :: rest := by
  simp [insert, h, KeyOrder.ne_of_before h]

theorem insert_cons_after {k l : κ} (h : KeyOrder.before l k = true) (v w : α)
    (rest : List (κ × α)) : insert k v ((l, w) :: rest) = (l, w) :: insert k v rest := by
  simp [insert, KeyOrder.before_asymm h, (KeyOrder.ne_of_before h).symm]

theorem insert_greatest {k : κ} {table : List (κ × α)}
    (h : ∀ e ∈ table, KeyOrder.before e.1 k = true) (v : α) :
    insert k v table = table ++ [(k, v)] := by
  induction table with
  | nil => rfl
  | cons e rest ih =>
    have hrest := ih fun d hd => h d (List.mem_cons_of_mem _ hd)
    rw [insert_cons_after (h e (by simp)), hrest, List.cons_append]

theorem extend_of_sorted {table entries : List (κ × α)} (h : Sorted (table ++ entries)) :
    extend table entries = table ++ entries := by
  induction entries generalizing table with
  | nil => rw [List.append_nil]; rfl
  | cons e rest ih =>
    have hbefore : ∀ d ∈ table, KeyOrder.before d.1 e.1 = true := fun d hd =>
      (List.pairwise_append.1 h).2.2 d hd e (by simp)
    have hsplit : table ++ e :: rest = (table ++ [e]) ++ rest := by simp
    calc extend table (e :: rest) = extend (insert e.1 e.2 table) rest := rfl
      _ = extend (table ++ [e]) rest := by rw [insert_greatest hbefore]
      _ = table ++ e :: rest := by rw [hsplit] at h ⊢; exact ih h

theorem ofEntries_of_sorted {entries : List (κ × α)} (h : Sorted entries) :
    ofEntries entries = entries :=
  extend_of_sorted h

theorem insert_insert_self (k : κ) (v w : α) (table : List (κ × α)) :
    insert k v (insert k w table) = insert k v table := by
  induction table with
  | nil => simp [insert]
  | cons e rest ih =>
    obtain ⟨m, x⟩ := e
    rcases KeyOrder.before_total k m with hkm | rfl | hmk
    · rw [insert_cons_before hkm, insert_cons_self, insert_cons_before hkm]
    · rw [insert_cons_self, insert_cons_self, insert_cons_self]
    · rw [insert_cons_after hmk, insert_cons_after hmk, insert_cons_after hmk, ih]

theorem insert_insert_before {k l : κ} (h : KeyOrder.before k l = true) (v w : α)
    (table : List (κ × α)) : insert k v (insert l w table) = insert l w (insert k v table) := by
  induction table with
  | nil => exact (insert_cons_before h v w []).trans (insert_cons_after h w v []).symm
  | cons e rest ih =>
    obtain ⟨m, x⟩ := e
    rcases KeyOrder.before_total l m with hlm | rfl | hml
    · have hkm := KeyOrder.before_trans h hlm
      rw [insert_cons_before hlm, insert_cons_before h, insert_cons_before hkm,
        insert_cons_after h, insert_cons_before hlm]
    · rw [insert_cons_self, insert_cons_before h, insert_cons_before h, insert_cons_after h,
        insert_cons_self]
    · rw [insert_cons_after hml]
      rcases KeyOrder.before_total k m with hkm | rfl | hmk
      · rw [insert_cons_before hkm, insert_cons_before hkm, insert_cons_after h,
          insert_cons_after hml]
      · rw [insert_cons_self, insert_cons_self, insert_cons_after h]
      · rw [insert_cons_after hmk, insert_cons_after hmk, insert_cons_after hml, ih]

theorem insert_insert_apart {k l : κ} (h : k ≠ l) (v w : α) (table : List (κ × α)) :
    insert k v (insert l w table) = insert l w (insert k v table) := by
  rcases KeyOrder.before_total k l with hkl | hkl | hlk
  · exact insert_insert_before hkl v w table
  · exact absurd hkl h
  · exact (insert_insert_before hlk w v table).symm

theorem insert_overwriting : Overwriting (insert : κ → α → List (κ × α) → List (κ × α)) :=
  ⟨insert_insert_self, fun v w table h => insert_insert_apart h v w table⟩

end Table

end BlockConvert
