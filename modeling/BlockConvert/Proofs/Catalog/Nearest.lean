import BlockConvert.Proofs.Catalog.Entered
import Mathlib.Order.Bounds.Basic
import Mathlib.Order.Defs.LinearOrder

set_option autoImplicit false

/-!
# The version nearest to a number

A number resolves to itself, to the least later patch of its minor version, to the greatest number
before it, or, if it is a legacy number, to the least one after it, in this order of preference.
That is what the search in a table in order gives, it respects the order of numbers, and a number
that was resolved to resolves to itself.
-/

namespace BlockConvert

/-! ## The order of numbers -/

@[reducible]
def KeyOrder.toLinearOrder (κ : Type) [DecidableEq κ] [KeyOrder κ] : LinearOrder κ where
  le a b := before b a = false
  lt a b := before a b = true
  le_refl := before_irrefl
  le_trans a b c hab hbc := by
    cases hca : before c a with
    | false => rfl
    | true =>
      rcases before_total a b with h | h | h
      · rw [before_trans hca h] at hbc
        contradiction
      · rw [← h, hca] at hbc
        contradiction
      · rw [h] at hab
        contradiction
  lt_iff_le_not_ge a b := by
    constructor
    · exact fun h => ⟨before_asymm h, by simp [h]⟩
    · exact fun h => by simpa using h.2
  le_antisymm a b hab hba := by
    rcases before_total a b with h | h | h
    · rw [h] at hba
      contradiction
    · exact h
    · rw [h] at hab
      contradiction
  le_total a b := by
    cases hba : before b a with
    | false => exact .inl rfl
    | true => exact .inr (before_asymm hba)
  toDecidableLE _ _ := inferInstanceAs (Decidable (_ = false))
  toDecidableLT _ _ := inferInstanceAs (Decidable (_ = true))
  toDecidableEq := inferInstance

namespace VersionNumber

instance : LinearOrder VersionNumber := KeyOrder.toLinearOrder VersionNumber

variable {a b c : VersionNumber}

theorem before_iff_lt : KeyOrder.before a b = true ↔ a < b := Iff.rfl

theorem lt_iff : a < b ↔ a.major < b.major ∨ a.major = b.major ∧
    (a.minor < b.minor ∨ a.minor = b.minor ∧ a.patch < b.patch) := by
  have hparts : a < b ↔ a.parts < b.parts := decide_eq_true_iff
  rw [hparts, parts, parts]
  simp [List.cons_lt_cons_iff]

/-- Between two patches of one minor version there are only patches of it. -/
theorem majorMinor_of_between (h : a.majorMinor = c.majorMinor) (hab : a ≤ b) (hbc : b ≤ c) :
    b.majorMinor = c.majorMinor := by
  rw [← not_lt, lt_iff] at hab hbc
  simp only [majorMinor, Prod.mk.injEq] at h ⊢
  omega

end VersionNumber

namespace Resolution

variable {α : Type} {table : List (VersionNumber × α)} {n m k : VersionNumber}
  {loaded : Set VersionNumber}

/-! ## Nearest numbers -/

def laterPatches (loaded : Set VersionNumber) (n : VersionNumber) : Set VersionNumber :=
  {k | k ∈ loaded ∧ n < k ∧ k.majorMinor = n.majorMinor}

def older (loaded : Set VersionNumber) (n : VersionNumber) : Set VersionNumber :=
  {k | k ∈ loaded ∧ k < n}

def newer (loaded : Set VersionNumber) (n : VersionNumber) : Set VersionNumber :=
  {k | k ∈ loaded ∧ n < k}

/-- Among the loaded numbers the second one is what the first one resolves to. -/
inductive Nearest (loaded : Set VersionNumber) (n : VersionNumber) : VersionNumber → Prop
  | itself (h : n ∈ loaded) : Nearest loaded n n
  | patch {m : VersionNumber} (hself : n ∉ loaded) (h : IsLeast (laterPatches loaded n) m) :
      Nearest loaded n m
  | older {m : VersionNumber} (hself : n ∉ loaded) (hpatch : laterPatches loaded n = ∅)
      (h : IsGreatest (older loaded n) m) : Nearest loaded n m
  | newer {m : VersionNumber} (hself : n ∉ loaded) (hpatch : laterPatches loaded n = ∅)
      (holder : Resolution.older loaded n = ∅) (hlegacy : n < legacyLimit)
      (h : IsLeast (newer loaded n) m) : Nearest loaded n m

/-- A number that is not legacy, with nothing loaded up to it and no later patch of its minor
version, resolves to nothing. -/
structure Unmatched (loaded : Set VersionNumber) (n : VersionNumber) : Prop where
  notLegacy : legacyLimit ≤ n
  above : ∀ k ∈ loaded, n < k
  noPatch : ∀ k ∈ loaded, k.majorMinor ≠ n.majorMinor

theorem Nearest.mem (h : Nearest loaded n m) : m ∈ loaded := by
  cases h with
  | itself h => exact h
  | patch _ h => exact h.1.1
  | older _ _ h => exact h.1.1
  | newer _ _ _ _ h => exact h.1.1

theorem Nearest.unique (hm : Nearest loaded n m) (hk : Nearest loaded n k) : m = k := by
  cases hm with
  | itself h => cases hk <;> first | rfl | contradiction
  | patch hself h =>
    cases hk with
    | itself => contradiction
    | patch _ hk => exact h.unique hk
    | older _ hpatch _ => exact absurd h.1 (hpatch ▸ Set.notMem_empty m)
    | newer _ hpatch _ _ _ => exact absurd h.1 (hpatch ▸ Set.notMem_empty m)
  | older hself hpatch h =>
    cases hk with
    | itself => contradiction
    | patch _ hk => exact absurd hk.1 (hpatch ▸ Set.notMem_empty k)
    | older _ _ hk => exact h.unique hk
    | newer _ _ holder _ _ => exact absurd h.1 (holder ▸ Set.notMem_empty m)
  | newer hself hpatch holder hlegacy h =>
    cases hk with
    | itself => contradiction
    | patch _ hk => exact absurd hk.1 (hpatch ▸ Set.notMem_empty k)
    | older _ _ hk => exact absurd hk.1 (holder ▸ Set.notMem_empty k)
    | newer _ _ _ _ hk => exact h.unique hk

theorem Unmatched.not_nearest (h : Unmatched loaded n) (m : VersionNumber) :
    ¬Nearest loaded n m := by
  intro hm
  have hlt := h.above m hm.mem
  cases hm with
  | itself _ => exact lt_irrefl n hlt
  | patch _ hpatch => exact h.noPatch m hpatch.1.1 hpatch.1.2.2
  | older _ _ holder => exact hlt.not_gt holder.1.2
  | newer _ _ _ hlegacy _ => exact h.notLegacy.not_gt hlegacy

/-- A number does not resolve to anything after a loaded number from it on. -/
theorem Nearest.le_of_mem (h : Nearest loaded n m) (hk : k ∈ loaded) (hnk : n ≤ k) : m ≤ k := by
  by_contra hkm
  have hkm : k < m := not_le.1 hkm
  cases h with
  | itself _ => exact absurd hkm hnk.not_gt
  | patch hself h =>
    have hlt : n < k := hnk.lt_of_ne fun heq => hself (heq ▸ hk)
    have hminor := VersionNumber.majorMinor_of_between h.1.2.2.symm hnk hkm.le
    exact absurd hkm (h.2 ⟨hk, hlt, hminor.trans h.1.2.2⟩).not_gt
  | older _ _ h => exact absurd (hkm.trans h.1.2) hnk.not_gt
  | newer hself _ _ _ h =>
    have hlt : n < k := hnk.lt_of_ne fun heq => hself (heq ▸ hk)
    exact absurd hkm (h.2 ⟨hk, hlt⟩).not_gt

/-- A later number does not resolve to an older version. If the later number resolves backwards
past the earlier one, then so does the earlier one, because no patch lies between. -/
theorem Nearest.mono {a b : VersionNumber} (hnm : n ≤ m) (ha : Nearest loaded n a)
    (hb : Nearest loaded m b) : a ≤ b := by
  by_cases hnb : n ≤ b
  · exact ha.le_of_mem hb.mem hnb
  have hbm : b < m := (not_le.1 hnb).trans_le hnm
  cases hb with
  | itself _ => exact absurd hbm (lt_irrefl m)
  | patch _ h => exact absurd hbm h.1.2.1.not_gt
  | newer _ _ _ _ h => exact absurd hbm h.1.2.not_gt
  | older hself hpatch h =>
    suffices ham : a < m from h.2 ⟨ha.mem, ham⟩
    have hne : a ≠ m := fun heq => hself (heq ▸ ha.mem)
    cases ha with
    | itself _ => exact hnm.lt_of_ne hne
    | older _ _ ha => exact ha.1.2.trans_le hnm
    | newer _ _ holder _ _ =>
      have hb : b ∈ Resolution.older loaded n := ⟨h.1.1, not_le.1 hnb⟩
      exact absurd hb (holder ▸ Set.notMem_empty b)
    | patch _ ha =>
      by_contra hma
      have hle : m ≤ a := not_lt.1 hma
      have hminor := VersionNumber.majorMinor_of_between ha.1.2.2.symm hnm hle
      have hmem : a ∈ laterPatches loaded m := ⟨ha.1.1, hle.lt_of_ne hne.symm, hminor.symm⟩
      exact absurd hmem (hpatch ▸ Set.notMem_empty a)

/-! ## Searching a table -/

def numbers (table : List (VersionNumber × α)) : Set VersionNumber := {k | ∃ v, (k, v) ∈ table}

theorem not_mem_numbers (hsorted : Table.Sorted table) (h : Table.get? table n = none) :
    n ∉ numbers table := by
  rintro ⟨v, hmem⟩
  rw [Table.get?_of_mem hsorted hmem] at h
  contradiction

/-- What a search in a list in order finds comes before all else that it looks for. -/
theorem related_of_find? {β : Type} {R : β → β → Prop} {l : List β} {p : β → Bool} {e f : β}
    (hl : l.Pairwise R) (h : l.find? p = some e) (hf : f ∈ l) (hp : p f = true) :
    e = f ∨ R e f := by
  obtain ⟨-, before, after, rfl, hbefore⟩ := List.find?_eq_some_iff_append.1 h
  rcases List.mem_append.1 hf with hf | hf
  · exact absurd hp (by simpa using hbefore f hf)
  · rcases List.mem_cons.1 hf with rfl | hf
    · exact .inl rfl
    · have hcons := (List.pairwise_append.1 hl).2.1
      exact .inr ((List.pairwise_cons.1 hcons).1 f hf)

variable {e : VersionNumber × α}

theorem isLeast_of_find? (p : VersionNumber → Bool) (hsorted : Table.Sorted table)
    (h : table.find? (fun e => p e.1) = some e) :
    IsLeast {k | k ∈ numbers table ∧ p k = true} e.1 := by
  refine ⟨⟨⟨e.2, List.mem_of_find?_eq_some h⟩, by simpa using List.find?_some h⟩, ?_⟩
  rintro k ⟨⟨v, hmem⟩, hp⟩
  rcases related_of_find? hsorted h hmem hp with rfl | hbefore
  · exact le_refl k
  · exact le_of_lt hbefore

theorem isGreatest_of_find? (p : VersionNumber → Bool) (hsorted : Table.Sorted table)
    (h : table.reverse.find? (fun e => p e.1) = some e) :
    IsGreatest {k | k ∈ numbers table ∧ p k = true} e.1 := by
  have hmem := List.mem_reverse.1 (List.mem_of_find?_eq_some h)
  refine ⟨⟨⟨e.2, hmem⟩, by simpa using List.find?_some h⟩, ?_⟩
  rintro k ⟨⟨v, hmem⟩, hp⟩
  rcases related_of_find? (List.pairwise_reverse.2 hsorted) h (List.mem_reverse.2 hmem) hp
    with rfl | hbefore
  · exact le_refl k
  · exact le_of_lt hbefore

theorem eq_empty_of_find? (p : VersionNumber → Bool) (h : table.find? (fun e => p e.1) = none) :
    {k | k ∈ numbers table ∧ p k = true} = ∅ := by
  refine Set.eq_empty_iff_forall_notMem.2 ?_
  rintro k ⟨⟨v, hmem⟩, hp⟩
  exact List.find?_eq_none.1 h _ hmem hp

def isLaterPatch (n k : VersionNumber) : Bool :=
  KeyOrder.before n k && k.majorMinor == n.majorMinor

theorem laterPatches_eq (loaded : Set VersionNumber) (n : VersionNumber) :
    laterPatches loaded n = {k | k ∈ loaded ∧ isLaterPatch n k = true} := by
  ext k
  simp [laterPatches, isLaterPatch, VersionNumber.before_iff_lt]

/-- The three searches that a table is put to for a number that it does not have. -/
def nearest? (table : List (VersionNumber × α)) (n : VersionNumber) : Option (VersionNumber × α) :=
  (table.find? fun e => isLaterPatch n e.1).or
    ((table.reverse.find? fun e => KeyOrder.before e.1 n).or
      (if n < legacyLimit then table.find? fun e => KeyOrder.before n e.1 else none))

theorem byNumber_eq (table : List (VersionNumber × α)) (n : VersionNumber) :
    byNumber table n = (Table.get? table n).or ((nearest? table n).map Prod.snd) := by
  rw [byNumber, above, below, List.find?_filter, List.getLast?_eq_head?_reverse,
    ← List.filter_reverse, List.head?_filter, List.head?_filter]
  simp only [Bool.decide_and, Bool.decide_eq_true, Option.orElse_eq_or, Option.orElse_eq_orElse]
  rfl

theorem mem_of_nearest? (h : nearest? table n = some e) : e ∈ table := by
  rcases Option.or_eq_some_iff.1 h with h | ⟨-, h⟩
  · exact List.mem_of_find?_eq_some h
  rcases Option.or_eq_some_iff.1 h with h | ⟨-, h⟩
  · exact List.mem_reverse.1 (List.mem_of_find?_eq_some h)
  · split at h
    · exact List.mem_of_find?_eq_some h
    · contradiction

theorem laterPatches_eq_empty (h : (table.find? fun e => isLaterPatch n e.1) = none) :
    laterPatches (numbers table) n = ∅ :=
  (laterPatches_eq _ n).trans (eq_empty_of_find? (isLaterPatch n) h)

theorem older_eq_empty (h : (table.reverse.find? fun e => KeyOrder.before e.1 n) = none) :
    older (numbers table) n = ∅ := by
  have hreverse : numbers table.reverse = numbers table := by
    ext k
    simp [numbers]
  rw [← hreverse]
  exact eq_empty_of_find? (KeyOrder.before · n) h

theorem nearest_of_nearest? (hsorted : Table.Sorted table) (hself : n ∉ numbers table)
    (h : nearest? table n = some e) : Nearest (numbers table) n e.1 := by
  rcases Option.or_eq_some_iff.1 h with hpatch | ⟨hpatch, h⟩
  · refine .patch hself ?_
    rw [laterPatches_eq]
    exact isLeast_of_find? (isLaterPatch n) hsorted hpatch
  rcases Option.or_eq_some_iff.1 h with holder | ⟨holder, h⟩
  · exact .older hself (laterPatches_eq_empty hpatch)
      (isGreatest_of_find? (KeyOrder.before · n) hsorted holder)
  split at h
  · rename_i hlegacy
    exact .newer hself (laterPatches_eq_empty hpatch) (older_eq_empty holder) hlegacy
      (isLeast_of_find? (KeyOrder.before n) hsorted h)
  · contradiction

/-- Where nothing is found there are later numbers only, and they come too late. -/
theorem unmatched_of_nearest? (hne : (numbers table).Nonempty) (hself : n ∉ numbers table)
    (h : nearest? table n = none) : Unmatched (numbers table) n := by
  obtain ⟨hpatch, h⟩ := Option.or_eq_none_iff.1 h
  obtain ⟨holder, h⟩ := Option.or_eq_none_iff.1 h
  have habove : ∀ k ∈ numbers table, n < k := fun k hk => by
    have hkn : ¬k < n := fun hlt =>
      Set.eq_empty_iff_forall_notMem.1 (older_eq_empty holder) k ⟨hk, hlt⟩
    exact (not_lt.1 hkn).lt_of_ne fun heq => hself (heq ▸ hk)
  refine ⟨?_, habove, fun k hk hminor => ?_⟩
  · obtain ⟨k, hk⟩ := hne
    split at h
    · have hnone := eq_empty_of_find? (KeyOrder.before n) h
      exact absurd (habove k hk) fun hlt =>
        Set.eq_empty_iff_forall_notMem.1 hnone k ⟨hk, hlt⟩
    · rename_i hlegacy
      exact not_lt.1 hlegacy
  · have hnone := laterPatches_eq_empty hpatch
    exact Set.eq_empty_iff_forall_notMem.1 hnone k ⟨hk, habove k hk, hminor⟩

theorem nearest_of_byNumber {v : α} (hsorted : Table.Sorted table)
    (h : byNumber table n = some v) : ∃ m, (m, v) ∈ table ∧ Nearest (numbers table) n m := by
  rw [byNumber_eq] at h
  rcases Option.or_eq_some_iff.1 h with hself | ⟨hself, h⟩
  · have hmem := Table.mem_of_get?_eq_some hself
    exact ⟨n, hmem, .itself ⟨v, hmem⟩⟩
  · obtain ⟨e, hfound, rfl⟩ := Option.map_eq_some_iff.1 h
    refine ⟨e.1, mem_of_nearest? hfound, nearest_of_nearest? hsorted ?_ hfound⟩
    exact not_mem_numbers hsorted hself

theorem unmatched_of_byNumber (hsorted : Table.Sorted table) (hne : (numbers table).Nonempty)
    (h : byNumber table n = none) : Unmatched (numbers table) n := by
  rw [byNumber_eq] at h
  obtain ⟨hself, h⟩ := Option.or_eq_none_iff.1 h
  exact unmatched_of_nearest? hne (not_mem_numbers hsorted hself) (Option.map_eq_none_iff.1 h)

end Resolution

/-! ## Resolution in a catalog -/

namespace Catalog

open Resolution (Nearest Unmatched)

variable {scripts : Scripts} {prepopulate : Bool} {entries : List (String × Option VersionData)}
  {c : Catalog} {platform : String} {n m : VersionNumber}

def Answers (c : Catalog) (platform : String) (selector : Selector) (m : VersionNumber) : Prop :=
  ∃ place, c.resolve platform selector = .ok place ∧ c.Holds place platform m

def Misses (c : Catalog) (platform : String) (selector : Selector) : Prop :=
  c.resolve platform selector = .error (.noMatch platform selector)

theorem exists_table (h : (ofEntries scripts prepopulate entries).1 = some c)
    (hloaded : (c.loadedNumbers platform).Nonempty) :
    ∃ table, c.table.get? platform = some table ∧ Table.Sorted table ∧
      Resolution.numbers table = c.loadedNumbers platform := by
  obtain ⟨number, hnumber⟩ := hloaded
  obtain ⟨place, hplace⟩ := Option.isSome_iff_exists.1 ((placeIn_isSome_iff h).2 hnumber)
  obtain ⟨table, htable, -⟩ := Option.bind_eq_some_iff.1 hplace
  have hsorted := (inOrder_table h platform table htable).1
  refine ⟨table, htable, hsorted, Set.ext fun k => ?_⟩
  rw [← placeIn_isSome_iff h, placeIn, htable, Option.bind_some, Option.isSome_iff_exists]
  exact exists_congr fun place => ⟨Table.get?_of_mem hsorted, Table.mem_of_get?_eq_some⟩

theorem resolve_number_cases (h : (ofEntries scripts prepopulate entries).1 = some c)
    (hloaded : (c.loadedNumbers platform).Nonempty) (n : VersionNumber) :
    (∃ m, c.Answers platform (.number n) m ∧ Nearest (c.loadedNumbers platform) n m) ∨
      c.Misses platform (.number n) ∧ Unmatched (c.loadedNumbers platform) n := by
  obtain ⟨table, htable, hsorted, hnumbers⟩ := exists_table h hloaded
  rw [← hnumbers] at hloaded ⊢
  have hresolve : ∀ found, Resolution.byNumber table n = found →
      Resolution.resolve c.dataVersionAt table (.number n) = found := fun _ h => h
  cases hfound : Resolution.byNumber table n with
  | some place =>
    obtain ⟨m, hmem, hnearest⟩ := Resolution.nearest_of_byNumber hsorted hfound
    refine .inl ⟨m, ⟨place, ?_, ?_⟩, hnearest⟩
    · simp only [resolve, htable, hresolve _ hfound]
    · refine holds_of_placeIn h ?_
      rw [placeIn, htable, Option.bind_some, Table.get?_of_mem hsorted hmem]
  | none =>
    refine .inr ⟨?_, Resolution.unmatched_of_byNumber hsorted hloaded hfound⟩
    simp only [Misses, resolve, htable, hresolve _ hfound]

theorem Answers.unique {selector : Selector} (hn : c.Answers platform selector n)
    (hm : c.Answers platform selector m) : n = m := by
  obtain ⟨place, hplace, v, hv, -, rfl⟩ := hn
  obtain ⟨place', hplace', w, hw, -, rfl⟩ := hm
  rw [hplace] at hplace'
  cases hplace'
  rw [hv] at hw
  cases hw
  rfl

theorem Answers.not_misses {selector : Selector} (hn : c.Answers platform selector n) :
    ¬c.Misses platform selector := by
  obtain ⟨place, hplace, -⟩ := hn
  rw [Misses, hplace]
  nofun

theorem answers_number_iff (h : (ofEntries scripts prepopulate entries).1 = some c)
    (hloaded : (c.loadedNumbers platform).Nonempty) :
    c.Answers platform (.number n) m ↔ Nearest (c.loadedNumbers platform) n m := by
  constructor
  · intro hanswer
    rcases resolve_number_cases h hloaded n with ⟨k, hk, hnearest⟩ | ⟨hmiss, -⟩
    · exact hanswer.unique hk ▸ hnearest
    · exact absurd hmiss hanswer.not_misses
  · intro hnearest
    rcases resolve_number_cases h hloaded n with ⟨k, hk, hnearest'⟩ | ⟨-, hunmatched⟩
    · exact hnearest.unique hnearest' ▸ hk
    · exact absurd hnearest (hunmatched.not_nearest m)

theorem misses_number_iff (h : (ofEntries scripts prepopulate entries).1 = some c)
    (hloaded : (c.loadedNumbers platform).Nonempty) :
    c.Misses platform (.number n) ↔ Unmatched (c.loadedNumbers platform) n := by
  rcases resolve_number_cases h hloaded n with ⟨m, hm, hnearest⟩ | ⟨hmiss, hunmatched⟩
  · exact ⟨fun hmiss => absurd hmiss hm.not_misses,
      fun hunmatched => absurd hnearest (hunmatched.not_nearest m)⟩
  · exact ⟨fun _ => hunmatched, fun _ => hmiss⟩

/-- Whatever was loaded of a platform, a number is answered with the nearest version, and with none
if the number is unmatched. Later numbers get later versions, or the same, and the number of a
version that is an answer is answered with itself. -/
theorem resolve_number_nearest (h : (ofEntries scripts prepopulate entries).1 = some c)
    (hloaded : (c.loadedNumbers platform).Nonempty) :
    (∀ n m, c.Answers platform (.number n) m ↔ Nearest (c.loadedNumbers platform) n m) ∧
      (∀ n, c.Misses platform (.number n) ↔ Unmatched (c.loadedNumbers platform) n) ∧
      (∀ n, c.Misses platform (.number n) ∨ ∃ m, c.Answers platform (.number n) m) ∧
      (∀ n n' m m', n ≤ n' → c.Answers platform (.number n) m →
        c.Answers platform (.number n') m' → m ≤ m') ∧
      ∀ n m, c.Answers platform (.number n) m → c.Answers platform (.number m) m := by
  refine ⟨fun n m => answers_number_iff h hloaded, fun n => misses_number_iff h hloaded,
    fun n => ?_, fun n n' m m' hle hm hm' => ?_, fun n m hm => ?_⟩
  · rcases resolve_number_cases h hloaded n with ⟨m, hm, -⟩ | ⟨hmiss, -⟩
    · exact .inr ⟨m, hm⟩
    · exact .inl hmiss
  · rw [answers_number_iff h hloaded] at hm hm'
    exact hm.mono hle hm'
  · rw [answers_number_iff h hloaded] at hm ⊢
    exact .itself hm.mem

def releases : List (String × Option VersionData) :=
  [("universal", some (.ofMeta ⟨"universal", ⟨1, 0, 0⟩, 0, .blockstate⟩)),
   ("java_1_12_2", some (.ofMeta ⟨"java", ⟨1, 12, 2⟩, 1343, .numerical⟩)),
   ("java_1_13_2", some (.ofMeta ⟨"java", ⟨1, 13, 2⟩, 1631, .blockstate⟩))]

theorem resolve_number_nearest_releases :
    ∃ c, (ofEntries ∅ false releases).1 = some c ∧ (c.loadedNumbers "java").Nonempty ∧
      c.Answers "java" (.number ⟨1, 14, 4⟩) ⟨1, 13, 2⟩ ∧
      Nearest (c.loadedNumbers "java") ⟨1, 14, 4⟩ ⟨1, 13, 2⟩ := by
  have hrun : ∃ c, (ofEntries ∅ false releases).1 = some c ∧
      c.versions = releases.filterMap Prod.snd ∧
      c.resolve "java" (.number ⟨1, 14, 4⟩) = .ok 2 := ⟨_, rfl, rfl, rfl⟩
  obtain ⟨c, h, hversions, hresolve⟩ := hrun
  have hholds : c.Holds 2 "java" ⟨1, 13, 2⟩ := by
    rw [Holds, hversions]
    exact ⟨_, rfl, rfl, rfl⟩
  have hloaded : (c.loadedNumbers "java").Nonempty := ⟨_, hholds.mem⟩
  have hanswer : c.Answers "java" (.number ⟨1, 14, 4⟩) ⟨1, 13, 2⟩ := ⟨2, hresolve, hholds⟩
  exact ⟨c, h, hloaded, hanswer, ((resolve_number_nearest h hloaded).1 _ _).1 hanswer⟩

end Catalog

end BlockConvert
