import BlockConvert.Order

set_option autoImplicit false

/-!
# Tables

A table is a list of entries in strictly increasing key order. `insert` writes a key and keeps the
order, `get?` reads the first entry of a key, and a sorted table is determined by what `get?`
answers. `Dict` is the type of sorted tables with text keys.
-/

namespace BlockConvert

namespace Table

variable {κ α β : Type} [DecidableEq κ]

def get? : List (κ × α) → κ → Option α
  | [], _ => none
  | (k, v) :: rest, key => if k = key then some v else get? rest key

variable [KeyOrder κ]

def insert (key : κ) (value : α) : List (κ × α) → List (κ × α)
  | [] => [(key, value)]
  | (k, v) :: rest =>
    if key = k then (key, value) :: rest
    else if KeyOrder.before key k then (key, value) :: (k, v) :: rest
    else (k, v) :: insert key value rest

/-- Writes entries one after another, so the last of equal keys wins. -/
def extend (table : List (κ × α)) (entries : List (κ × α)) : List (κ × α) :=
  entries.foldl (fun t e => insert e.1 e.2 t) table

def ofEntries (entries : List (κ × α)) : List (κ × α) := extend [] entries

def Sorted (table : List (κ × α)) : Prop :=
  table.Pairwise fun a b => KeyOrder.before a.1 b.1 = true

omit [KeyOrder κ] in
@[simp] theorem get?_nil (key : κ) : get? ([] : List (κ × α)) key = none := rfl

omit [KeyOrder κ] in
theorem get?_cons (k : κ) (v : α) (rest : List (κ × α)) (key : κ) :
    get? ((k, v) :: rest) key = if k = key then some v else get? rest key := rfl

omit [KeyOrder κ] in
theorem mem_of_get?_eq_some {table : List (κ × α)} {key : κ} {v : α}
    (h : get? table key = some v) : (key, v) ∈ table := by
  induction table with
  | nil => simp at h
  | cons e rest ih =>
    obtain ⟨k, w⟩ := e
    rw [get?_cons] at h
    split at h
    · rename_i hk
      simp_all
    · exact List.mem_cons_of_mem _ (ih h)

theorem get?_insert (key : κ) (value : α) (table : List (κ × α)) (other : κ) :
    get? (insert key value table) other = if key = other then some value else get? table other := by
  induction table with
  | nil => rfl
  | cons e rest ih =>
    obtain ⟨k, v⟩ := e
    rw [insert]
    split
    · subst k
      simp only [get?_cons]
      split <;> rfl
    · split
      · rfl
      · simp only [get?_cons, ih]
        split
        · rename_i hne _ hk
          subst hk
          simp [hne]
        · rfl

theorem mem_insert {key : κ} {value : α} {table : List (κ × α)} {e : κ × α}
    (h : e ∈ insert key value table) : e = (key, value) ∨ e ∈ table := by
  induction table with
  | nil => simpa [insert] using h
  | cons f rest ih =>
    obtain ⟨k, v⟩ := f
    rw [insert] at h
    split at h
    · rcases List.mem_cons.1 h with h | h
      · exact .inl h
      · exact .inr (List.mem_cons_of_mem _ h)
    · split at h
      · simpa using h
      · rcases List.mem_cons.1 h with h | h
        · exact .inr (by simp [h])
        · rcases ih h with h | h
          · exact .inl h
          · exact .inr (List.mem_cons_of_mem _ h)

theorem sorted_insert {table : List (κ × α)} (key : κ) (value : α) (h : Sorted table) :
    Sorted (insert key value table) := by
  induction table with
  | nil => simp [insert, Sorted]
  | cons e rest ih =>
    obtain ⟨k, v⟩ := e
    obtain ⟨hk, hrest⟩ := List.pairwise_cons.1 h
    rw [insert]
    split
    · subst k
      exact List.pairwise_cons.2 ⟨hk, hrest⟩
    · rename_i hne
      split
      · rename_i hb
        refine List.pairwise_cons.2 ⟨?_, h⟩
        intro f hf
        rcases List.mem_cons.1 hf with hf | hf
        · subst hf
          exact hb
        · exact KeyOrder.before_trans hb (hk f hf)
      · rename_i hb
        have hkb : KeyOrder.before k key = true := by
          rcases KeyOrder.before_total key k with h | h | h
          · exact absurd h hb
          · exact absurd h hne
          · exact h
        refine List.pairwise_cons.2 ⟨?_, ih hrest⟩
        intro f hf
        rcases mem_insert hf with hf | hf
        · subst hf
          exact hkb
        · exact hk f hf

theorem sorted_extend {table : List (κ × α)} (entries : List (κ × α)) (h : Sorted table) :
    Sorted (extend table entries) := by
  induction entries generalizing table with
  | nil => exact h
  | cons e rest ih => exact ih (sorted_insert e.1 e.2 h)

theorem sorted_ofEntries (entries : List (κ × α)) : Sorted (ofEntries entries) :=
  sorted_extend entries List.Pairwise.nil

end Table

structure Dict (α : Type) where
  entries : List (String × α)
  sorted : Table.Sorted entries

namespace Dict

variable {α β : Type}

instance : EmptyCollection (Dict α) := ⟨⟨[], List.Pairwise.nil⟩⟩

instance [DecidableEq α] : DecidableEq (Dict α) := fun a b =>
  decidable_of_iff (a.entries = b.entries)
    ⟨fun h => by cases a; cases b; simp_all, fun h => by rw [h]⟩

def get? (d : Dict α) (key : String) : Option α := Table.get? d.entries key

def insert (d : Dict α) (key : String) (value : α) : Dict α :=
  ⟨Table.insert key value d.entries, Table.sorted_insert key value d.sorted⟩

def extend (d : Dict α) (entries : List (String × α)) : Dict α :=
  ⟨Table.extend d.entries entries, Table.sorted_extend entries d.sorted⟩

def ofList (entries : List (String × α)) : Dict α :=
  ⟨Table.ofEntries entries, Table.sorted_ofEntries entries⟩

def keys (d : Dict α) : List String := d.entries.map Prod.fst

def size (d : Dict α) : Nat := d.entries.length

theorem get?_insert (d : Dict α) (key : String) (value : α) (other : String) :
    (d.insert key value).get? other = if key = other then some value else d.get? other :=
  Table.get?_insert key value d.entries other

end Dict

end BlockConvert
