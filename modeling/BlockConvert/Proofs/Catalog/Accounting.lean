import BlockConvert.Catalog
import BlockConvert.Proofs.Conversion.Flags
import BlockConvert.Proofs.Desk.Exits
import Mathlib.Data.List.Induction
import Mathlib.Data.Set.Card

set_option autoImplicit false

/-!
# The accounts of a session

The versions of a catalog share the counters, and each has a memo of its own. Whatever calls are
made on them, in whatever order, the counters add up to the calls, and a memo holds one result for
each key for which a result was fit to be kept.
-/

namespace BlockConvert

structure Turn (c : Catalog) where
  place : Nat
  call : Call
  served : (c.converters? place).isSome

structure Exchange (c : Catalog) where
  turn : Turn c
  conversion : Conversion

structure History (c : Catalog) where
  session : Session
  exchanges : List (Exchange c)

namespace Turn

variable {c : Catalog}

def converters (t : Turn c) : Converters := (c.converters? t.place).get t.served

def hasKey (t : Turn c) : Bool := t.call.memoKey?.isSome

theorem converters?_place (t : Turn c) : c.converters? t.place = some t.converters :=
  (Option.some_get t.served).symm

theorem place_lt (t : Turn c) : t.place < c.versions.length := by
  have h := t.converters?_place
  simp only [Catalog.converters?, Option.bind_eq_bind, Option.bind_eq_some_iff] at h
  obtain ⟨version, hversion, -⟩ := h
  exact (List.getElem?_eq_some_iff.1 hversion).1

end Turn

namespace Exchange

variable {c : Catalog}

/-- The result is fit to be kept under the key at the place: the call was for a block without a
block entity, its conversion ended well, and the result depends on the block alone and lacks
nothing. -/
structure Fit (place : Nat) (key : MemoKey) (x : Exchange c) : Prop where
  place : x.turn.place = place
  key : x.turn.call.memoKey? = some key
  yields : x.turn.call.Yields x.turn.converters x.conversion
  cacheable : x.conversion.cacheable = true
  complete : x.conversion.extraNeeded = false

end Exchange

/-! ## The counters -/

namespace Counters

structure Balanced (calls keyed : Nat) (n : Counters) : Prop where
  ended : n.hits + n.missing + n.conversions = calls
  asked : n.hits + n.misses = keyed
  failures : n.failures ≤ n.extraNeeded
  extraNeeded : n.extraNeeded ≤ n.conversions

theorem Balanced.exit {converters : Converters} {q : Call} {d : Desk} {n : Counters} {a : Answer}
    {calls keyed : Nat} (h : n.Balanced calls keyed) (ha : Desk.Exit converters q d n a) :
    a.counters.Balanced (calls + 1) (keyed + if q.memoKey?.isSome then 1 else 0) := by
  obtain ⟨hended, hasked, hfailures, hextraNeeded⟩ := h
  cases ha with
  | hit key asks _ _ counters =>
    rw [counters, asks]
    constructor <;> simp only [countHit, Option.isSome_some, if_true] <;> omega
  | missing _ _ _ _ counters =>
    rw [counters, Counters.asked]
    split <;> constructor <;> simp only [countMissing, countMiss] <;> omega
  | failing _ _ _ counters =>
    rw [counters, Counters.asked]
    split <;> constructor <;>
      simp only [countExtraNeeded, countFailure, countConversion, countMiss] <;> omega
  | converted _ _ _ counters =>
    rw [counters, Counters.asked, countResult]
    split <;> split <;> constructor <;>
      simp only [countExtraNeeded, countConversion, countMiss] <;> omega

end Counters

/-! ## One memo -/

structure Memo.Records {c : Catalog} (place : Nat) (xs : List (Exchange c)) (memo : Memo) :
    Prop where
  distinct : (memo.map Prod.fst).Nodup
  origin : ∀ e ∈ memo, ∃ x ∈ xs, x.Fit place e.1 ∧ x.conversion = e.2
  returned : ∀ x ∈ xs, x.turn.place = place → ∀ key, x.turn.call.memoKey? = some key →
    x.conversion.cacheable = true → (key, x.conversion) ∈ memo

namespace Memo.Records

variable {c : Catalog} {place : Nat} {xs : List (Exchange c)} {memo : Memo}

theorem empty : Memo.Records place ([] : List (Exchange c)) [] where
  distinct := List.nodup_nil
  origin _ he := absurd he List.not_mem_nil
  returned _ hx := absurd hx List.not_mem_nil

theorem unchanged (h : memo.Records place xs) (x : Exchange c)
    (hx : x.turn.place = place → ∀ key, x.turn.call.memoKey? = some key →
      x.conversion.cacheable = true → (key, x.conversion) ∈ memo) :
    memo.Records place (xs ++ [x]) where
  distinct := h.distinct
  origin e he :=
    let ⟨y, hy, hfit⟩ := h.origin e he
    ⟨y, List.mem_append_left _ hy, hfit⟩
  returned y hy := by
    rcases List.mem_append.1 hy with hy | hy
    · exact h.returned y hy
    · obtain rfl := List.mem_singleton.1 hy
      exact hx

theorem elsewhere (h : memo.Records place xs) (x : Exchange c) (hx : x.turn.place ≠ place) :
    memo.Records place (xs ++ [x]) := h.unchanged x fun heq => absurd heq hx

theorem gain (h : memo.Records place xs) {x : Exchange c} {key : MemoKey} (hx : x.Fit place key)
    (hnew : memo.lookup key = none) :
    Records place (xs ++ [x]) ((key, x.conversion) :: memo) where
  distinct := by
    refine List.nodup_cons.2 ⟨fun hmem => ?_, h.distinct⟩
    obtain ⟨e, he, hkey⟩ := List.mem_map.1 hmem
    have := List.lookup_eq_none_iff.1 hnew e he
    simp [hkey] at this
  origin e he := by
    rcases List.mem_cons.1 he with rfl | he
    · exact ⟨x, List.mem_append_right _ List.mem_cons_self, hx, rfl⟩
    · obtain ⟨y, hy, hfit⟩ := h.origin e he
      exact ⟨y, List.mem_append_left _ hy, hfit⟩
  returned y hy hplace key' hkey hcacheable := by
    rcases List.mem_append.1 hy with hy | hy
    · exact List.mem_cons_of_mem _ (h.returned y hy hplace key' hkey hcacheable)
    · obtain rfl := List.mem_singleton.1 hy
      obtain rfl : key = key' := Option.some.inj (hx.key.symm.trans hkey)
      exact List.mem_cons_self

/-- A result that is kept lacks nothing, because a conversion that lacked something does not depend
on the record alone. -/
theorem exit (h : memo.Records place xs) {t : Turn c} (ht : t.place = place) {d : Desk}
    (hd : d.memo = memo) {n : Counters} {a : Answer} (ha : Desk.Exit t.converters t.call d n a) :
    a.desk.memo.Records place (xs ++ [⟨t, a.conversion⟩]) := by
  subst hd
  cases ha with
  | hit key asks found hmemo =>
    rw [hmemo]
    refine h.unchanged _ fun _ key' hkey _ => ?_
    obtain rfl : key = key' := Option.some.inj (asks.symm.trans hkey)
    obtain ⟨before, after, heq, -⟩ := List.lookup_eq_some_iff.1 found
    rw [heq]
    exact List.mem_append_right _ List.mem_cons_self
  | missing _ _ hconversion hmemo =>
    rw [hmemo]
    refine h.unchanged _ fun _ _ _ hcacheable => ?_
    simp [hconversion, Conversion.unchanged] at hcacheable
  | failing _ hconversion hmemo =>
    rw [hmemo]
    refine h.unchanged _ fun _ _ _ hcacheable => ?_
    simp [hconversion, Conversion.unchanged] at hcacheable
  | converted yields unseen hmemo =>
    rw [hmemo]
    cases hkey : t.call.memoKey? with
    | none =>
      simp only [Call.gain, hkey, List.nil_append]
      exact h.unchanged _ fun _ key hkey' _ => by simp [hkey] at hkey'
    | some key =>
      cases hcacheable : a.conversion.cacheable with
      | false =>
        simp only [Call.gain, hkey, hcacheable, Bool.false_eq_true, if_false, List.nil_append]
        exact h.unchanged _ fun _ _ _ hcacheable' => by simp [hcacheable] at hcacheable'
      | true =>
        simp only [Call.gain, hkey, hcacheable, if_true, List.singleton_append]
        obtain ⟨route, hroute, hresult⟩ := id yields
        have hcomplete : a.conversion.extraNeeded = false := by
          cases hneeded : a.conversion.extraNeeded with
          | false => rfl
          | true =>
            have := Request.uncacheable_of_extraNeeded hresult hneeded
            simp [hcacheable] at this
        exact h.gain ⟨ht, hkey, yields, hcacheable, hcomplete⟩ (unseen key hkey)

theorem length_eq (h : memo.Records place xs) :
    memo.length = {key | ∃ x ∈ xs, x.Fit place key}.ncard := by
  have hkeys : {key | ∃ x ∈ xs, x.Fit place key} = (memo.map Prod.fst).toFinset := by
    ext key
    simp only [Set.mem_ofPred_eq, List.coe_toFinset, List.mem_map]
    constructor
    · rintro ⟨x, hx, hfit⟩
      exact ⟨_, h.returned x hx hfit.place key hfit.key hfit.cacheable, rfl⟩
    · rintro ⟨e, he, rfl⟩
      obtain ⟨x, hx, hfit, -⟩ := h.origin e he
      exact ⟨x, hx, hfit⟩
  rw [hkeys, Set.ncard_coe_finset, List.toFinset_card_of_nodup h.distinct, List.length_map]

end Memo.Records

/-! ## A session -/

namespace Session

variable {s : Session} {place : Nat} {a : Answer}

theorem desk_after_self (h : place < s.desks.length) : (s.after place a).desk place = a.desk := by
  simp [desk, after, h]

theorem desk_after_of_ne {other : Nat} (h : place ≠ other) :
    (s.after place a).desk other = s.desk other := by
  simp [desk, after, List.getElem?_set_ne h]

theorem desk_start (c : Catalog) (place : Nat) : (start c).desk place = .empty := by
  simp only [desk, start, List.getElem?_map]
  cases c.versions[place]? <;> rfl

end Session

namespace History

variable {c : Catalog}

def start (c : Catalog) : History c := ⟨.start c, []⟩

def next (h : History c) (t : Turn c) : History c :=
  match h.session.serve t.place fun converters => Desk.serve converters t.call with
  | some (a, s) => ⟨s, h.exchanges ++ [⟨t, a.conversion⟩]⟩
  | none => h

/-- A new session in which the calls were made, one after another. -/
def after (turns : List (Turn c)) : History c := turns.foldl next (start c)

def counters (h : History c) : Counters := h.session.counters

def desk (h : History c) (place : Nat) : Desk := h.session.desk place

theorem after_concat (turns : List (Turn c)) (t : Turn c) :
    after (turns ++ [t]) = (after turns).next t := by
  rw [after, List.foldl_append, List.foldl_cons, List.foldl_nil]
  rfl

structure Runs (h : History c) : Prop where
  catalog : h.session.catalog = c
  desks : h.session.desks.length = c.versions.length

def answer (h : History c) (t : Turn c) : Answer :=
  Desk.serve t.converters t.call (h.desk t.place) h.counters

theorem answer_exit (h : History c) (t : Turn c) :
    Desk.Exit t.converters t.call (h.desk t.place) h.counters (h.answer t) :=
  Desk.serve_exit ..

theorem next_eq {h : History c} (hruns : h.Runs) (t : Turn c) : h.next t =
    ⟨h.session.after t.place (h.answer t), h.exchanges ++ [⟨t, (h.answer t).conversion⟩]⟩ := by
  simp only [next, Session.serve, hruns.catalog, t.converters?_place, Option.map_some]
  rfl

theorem Runs.next {h : History c} (hruns : h.Runs) (t : Turn c) : (h.next t).Runs := by
  rw [next_eq hruns]
  exact ⟨hruns.catalog, by simpa [Session.after] using hruns.desks⟩

theorem start_runs (c : Catalog) : (start c).Runs := ⟨rfl, List.length_map _⟩

theorem desk_next_self {h : History c} (hruns : h.Runs) (t : Turn c) :
    (h.next t).desk t.place = (h.answer t).desk := by
  rw [next_eq hruns]
  exact Session.desk_after_self (hruns.desks.symm ▸ t.place_lt)

theorem desk_next_of_ne {h : History c} (hruns : h.Runs) {t : Turn c} {place : Nat}
    (hne : t.place ≠ place) : (h.next t).desk place = h.desk place := by
  rw [next_eq hruns]
  exact Session.desk_after_of_ne hne

structure Follows (turns : List (Turn c)) (h : History c) : Prop where
  runs : h.Runs
  answered : h.exchanges.map Exchange.turn = turns
  balanced : h.counters.Balanced turns.length (turns.countP Turn.hasKey)
  records : ∀ place, (h.desk place).memo.Records place h.exchanges

theorem start_follows (c : Catalog) : (start c).Follows [] where
  runs := start_runs c
  answered := rfl
  balanced := ⟨rfl, rfl, Nat.le_refl 0, Nat.le_refl 0⟩
  records place := by
    rw [desk, start, Session.desk_start]
    exact .empty

theorem Follows.next {turns : List (Turn c)} {h : History c} (hf : h.Follows turns) (t : Turn c) :
    (h.next t).Follows (turns ++ [t]) where
  runs := hf.runs.next t
  answered := by
    rw [next_eq hf.runs, List.map_append, hf.answered]
    rfl
  balanced := by
    rw [next_eq hf.runs, List.length_append, List.countP_append, List.countP_singleton]
    exact hf.balanced.exit (h.answer_exit t)
  records place := by
    have hexchanges : (h.next t).exchanges = h.exchanges ++ [⟨t, (h.answer t).conversion⟩] := by
      rw [next_eq hf.runs]
    rw [hexchanges]
    by_cases hplace : t.place = place
    · subst hplace
      rw [desk_next_self hf.runs]
      exact (hf.records t.place).exit rfl rfl (h.answer_exit t)
    · rw [desk_next_of_ne hf.runs hplace]
      exact (hf.records place).elsewhere _ hplace

/-- The induction is on the calls, from the last one. -/
theorem after_follows (turns : List (Turn c)) : (after turns).Follows turns := by
  induction turns using List.reverseRecOn with
  | nil => exact start_follows c
  | append_singleton turns t ih =>
    rw [after_concat]
    exact ih.next t

/-! ### What is kept stays -/

theorem memo_next {h : History c} (hruns : h.Runs) (t : Turn c) (place : Nat) :
    (h.desk place).memo <:+ ((h.next t).desk place).memo := by
  by_cases hplace : t.place = place
  · subst hplace
    rw [desk_next_self hruns]
    exact (h.answer_exit t).memo_suffix
  · rw [desk_next_of_ne hruns hplace]

theorem memo_after_append (turns later : List (Turn c)) (place : Nat) :
    ((after turns).desk place).memo <:+ ((after (turns ++ later)).desk place).memo := by
  induction later using List.reverseRecOn with
  | nil => rw [List.append_nil]
  | append_singleton later t ih =>
    rw [← List.append_assoc, after_concat]
    exact ih.trans (memo_next (after_follows _).runs t place)

/-! ### The accounts -/

structure Accounts (turns : List (Turn c)) (h : History c) : Prop where
  answered : h.exchanges.map Exchange.turn = turns
  ended : h.counters.hits + h.counters.missing + h.counters.conversions = turns.length
  asked : h.counters.hits + h.counters.misses = turns.countP Turn.hasKey
  failures : h.counters.failures ≤ h.counters.extraNeeded
  extraNeeded : h.counters.extraNeeded ≤ h.counters.conversions
  stored : ∀ place, ∀ e ∈ (h.desk place).memo,
    ∃ x ∈ h.exchanges, x.Fit place e.1 ∧ x.conversion = e.2
  kept : ∀ place, (h.desk place).kept = {key | ∃ x ∈ h.exchanges, x.Fit place key}.ncard

/-- After any calls on any versions the counters add up to the calls, and every memo holds a result
for each key for which one was fit to be kept, and no other. Later calls take nothing away from a
memo, and blocks that come with a block entity pass it by. -/
theorem calls_accounted (c : Catalog) :
    (∀ turns : List (Turn c), (after turns).Accounts turns) ∧
    (∀ (turns later : List (Turn c)) (place : Nat),
      ((after turns).desk place).kept ≤ ((after (turns ++ later)).desk place).kept) ∧
    ∀ (v : Converters) (b : BlockCall), b.extraInput.isSome = true →
      ∀ (d : Desk) (memo : Memo) (n : Counters),
        Desk.serve v (.block b) { d with memo := memo } n =
          { Desk.serve v (.block b) d n with
            desk := { (Desk.serve v (.block b) d n).desk with memo := memo } } := by
  refine ⟨fun turns => ?_, fun turns later place => ?_, fun v b hextra d memo n => ?_⟩
  · have h := after_follows turns
    exact {
      answered := h.answered
      ended := h.balanced.ended
      asked := h.balanced.asked
      failures := h.balanced.failures
      extraNeeded := h.balanced.extraNeeded
      stored := fun place => (h.records place).origin
      kept := fun place => (h.records place).length_eq }
  · exact (memo_after_append turns later place).length_le
  · exact Desk.serveBlock_withMemo hextra memo

end History

end BlockConvert
