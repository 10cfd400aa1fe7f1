import BlockConvert.Desk
import BlockConvert.Proofs.Conversion.Relocation

set_option autoImplicit false

/-!
# When a kept result may be served again

A desk serves the first result that it kept for a direction, a layout and a block. That is the
result that the call would have on its own unless the result stands at another place, or the place
of the block cannot be looked at any more. Where neither happens the memo cannot be noticed.
-/

namespace BlockConvert

namespace BlockCall

def request (c : Converters) (q : BlockCall) (route : Route) : Request :=
  c.request route (.block q.block) q.lookup q.extraInput q.location

def route (c : Converters) (q : BlockCall) : Except NotFound Route :=
  c.route .block q.direction q.forceBlockstate q.block.id

def place (q : BlockCall) : Coords := q.location.getD .origin

def outcome (c : Converters) (q : BlockCall) : Conversion :=
  match q.route c with
  | .error _ => .unchanged (.block q.block) q.extraInput false
  | .ok route =>
    match (q.request c route).run.result with
    | .ok t => t
    | .error _ => .unchanged (.block q.block) q.extraInput true

/-- The place of the block can be looked at, wherever its tree is sought there. -/
def OriginReadable (c : Converters) (q : BlockCall) : Prop :=
  ∀ route, q.route c = .ok route → (q.request c route).OriginReadable

variable {c : Converters} {p q : BlockCall}

theorem route_of_memoKey (h : p.memoKey = q.memoKey) : q.route c = p.route c := by
  simp only [memoKey, MemoKey.mk.injEq] at h
  simp only [route, h.1, h.2.1, h.2.2]

theorem outcome_of_cacheable (h : (q.outcome c).cacheable = true) :
    ∃ route, q.route c = .ok route ∧ (q.request c route).run.result = .ok (q.outcome c) := by
  unfold outcome at h ⊢
  cases hroute : q.route c with
  | error e => simp [hroute, Conversion.unchanged] at h
  | ok route =>
    cases hresult : (q.request c route).run.result with
    | error e => simp [hroute, hresult, Conversion.unchanged] at h
    | ok t => exact ⟨route, rfl, by simp only [hresult]⟩

theorem outcome_of_result {route : Route} {t : Conversion} (hroute : q.route c = .ok route)
    (hresult : (q.request c route).run.result = .ok t) : q.outcome c = t := by
  simp only [outcome, hroute, hresult]

theorem sameQuestion_of_memoKey (h : p.memoKey = q.memoKey) (route : Route) :
    Request.SameQuestion (p.request c route) (q.request c route) p.block := by
  simp only [memoKey, MemoKey.mk.injEq] at h
  exact ⟨rfl, congrArg Record.block h.2.2.symm, rfl, rfl, rfl, rfl⟩

/-- Two calls with the same key have the same result, once the first depends on the block alone,
just when the second can look at its place and either stands there as well or shows no place. -/
theorem outcome_eq_iff (hkey : p.memoKey = q.memoKey)
    (hcacheable : (p.outcome c).cacheable = true) :
    q.outcome c = p.outcome c ↔
      q.OriginReadable c ∧ ((p.outcome c).bearsPlace = true → q.place = p.place) := by
  obtain ⟨route, hroute, hresult⟩ := outcome_of_cacheable hcacheable
  have hroute' : q.route c = .ok route := (route_of_memoKey hkey).trans hroute
  have hsame := sameQuestion_of_memoKey (c := c) hkey route
  have hreadable : q.OriginReadable c ↔ (q.request c route).OriginReadable := by
    constructor
    · exact fun h => h route hroute'
    · intro h route' hr
      obtain rfl : route = route' := Except.ok.inj (hroute'.symm.trans hr)
      exact h
  rw [hreadable]
  by_cases h : (q.request c route).OriginReadable
  · have hmoved := outcome_of_result hroute'
      (Request.result_of_cacheable hsame hresult hcacheable h)
    have hown : (p.outcome c).relocate p.place = p.outcome c :=
      Request.relocate_of_result hsame.input hresult
    have hiff := Conversion.relocate_eq_iff (t := p.outcome c) (a := q.place) (b := p.place)
    rw [hown] at hiff
    rw [hmoved]
    exact hiff.trans ⟨fun hplace => ⟨h, hplace⟩, fun hboth => hboth.2⟩
  · obtain ⟨e, he⟩ := Request.run_of_unreadable hsame.input' h
    have hback : q.outcome c = .unchanged (.block q.block) q.extraInput true := by
      simp only [outcome, hroute', he]
    have hne : q.outcome c ≠ p.outcome c := by
      intro heq
      rw [← heq, hback] at hcacheable
      simp [Conversion.unchanged] at hcacheable
    simp [hne, h]

end BlockCall

namespace Desk

variable (c : Converters)

theorem serveNew_conversion (q : BlockCall) (d : Desk) (n : Counters) :
    (serveNew c q d n).conversion = q.outcome c := by
  cases hroute : c.route .block q.direction q.forceBlockstate q.block.id with
  | error e =>
    simp only [serveNew, BlockCall.outcome, BlockCall.route, hroute, handBack]
    split <;> rfl
  | ok route =>
    have hkeep : ∀ a, (keep q a).conversion = a.conversion := by
      intro a
      unfold keep
      split <;> rfl
    cases hresult : (c.request route (.block q.block) q.lookup q.extraInput
        q.location).run.result with
    | ok t =>
      simp only [serveNew, BlockCall.outcome, BlockCall.route, BlockCall.request, hroute, hkeep,
        convert, hresult]
    | error e =>
      simp only [serveNew, BlockCall.outcome, BlockCall.route, BlockCall.request, hroute, hkeep,
        convert, hresult]
      rfl

theorem serveNew_memo (q : BlockCall) (d : Desk) (n : Counters) :
    (serveNew c q d n).desk.memo =
      if q.isMemoisable && (q.outcome c).cacheable then (q.memoKey, q.outcome c) :: d.memo
      else d.memo := by
  rw [← serveNew_conversion c q d n]
  unfold serveNew
  split
  · unfold handBack
    dsimp only
    split <;> simp [Conversion.unchanged, report]
  · rename_i route _
    generalize ha : convert c q.direction _ d n = a
    have hdesk : a.desk = d := by
      rw [← ha]
      unfold convert
      dsimp only
      split <;> rfl
    unfold keep
    split <;> simp only [hdesk]

/-- The result that a desk keeps for a key: that of the first call that was fit to be kept. -/
def stored (past : List BlockCall) (key : MemoKey) : Option Conversion :=
  (past.find? fun p => p.isMemoisable && decide (p.memoKey = key) && (p.outcome c).cacheable).map
    (BlockCall.outcome c)

def Remembers (past : List BlockCall) (d : Desk) : Prop :=
  ∀ key, d.memo.lookup key = stored c past key

def resultAfter (past : List BlockCall) (q : BlockCall) : Conversion :=
  if q.isMemoisable then (stored c past q.memoKey).getD (q.outcome c) else q.outcome c

variable {c}

theorem empty_remembers : Remembers c [] .empty := fun _ => rfl

theorem stored_append (past : List BlockCall) (q : BlockCall) (key : MemoKey) :
    stored c (past ++ [q]) key = (stored c past key).or (stored c [q] key) := by
  simp only [stored, List.find?_append]
  cases past.find? _ <;> rfl

theorem stored_single (q : BlockCall) (key : MemoKey) : stored c [q] key =
    if (q.isMemoisable && (q.outcome c).cacheable) = true ∧ q.memoKey = key then some (q.outcome c)
    else none := by
  unfold stored
  by_cases hkey : q.memoKey = key <;>
    cases hm : q.isMemoisable <;> cases ho : (q.outcome c).cacheable <;> simp [hkey, hm, ho]

theorem lookup_cons (key key' : MemoKey) (t : Conversion) (memo : Memo) :
    List.lookup key ((key', t) :: memo) = if key' = key then some t else memo.lookup key := by
  rw [List.lookup_cons]
  by_cases h : key' = key
  · subst h
    simp
  · have hne : (key == key') = false := beq_eq_false_iff_ne.2 (Ne.symm h)
    simp [hne, h]

theorem serveNew_remembers {past : List BlockCall} {d : Desk} (h : Remembers c past d)
    {q : BlockCall} (hnew : q.isMemoisable = true → stored c past q.memoKey = none)
    (n : Counters) : Remembers c (past ++ [q]) (serveNew c q d n).desk := by
  intro key
  rw [serveNew_memo, stored_append, stored_single]
  cases hkept : q.isMemoisable && (q.outcome c).cacheable with
  | false => simp [h key]
  | true =>
    rw [if_pos rfl, lookup_cons, h key]
    by_cases hkey : q.memoKey = key
    · subst hkey
      simp [hnew (Bool.and_eq_true_iff.1 hkept).1]
    · simp [hkey]

theorem serveBlock_step {past : List BlockCall} {d : Desk} (h : Remembers c past d)
    (q : BlockCall) (n : Counters) :
    (serveBlock c q d n).conversion = resultAfter c past q ∧
      Remembers c (past ++ [q]) (serveBlock c q d n).desk := by
  unfold serveBlock resultAfter
  cases hm : q.isMemoisable with
  | false =>
    simp only [Bool.false_eq_true, if_false]
    exact ⟨serveNew_conversion c q d n, serveNew_remembers h (by simp [hm]) n⟩
  | true =>
    simp only [if_true]
    rw [h q.memoKey]
    cases hs : stored c past q.memoKey with
    | none =>
      exact ⟨serveNew_conversion c q d _, serveNew_remembers h (fun _ => hs) _⟩
    | some t =>
      refine ⟨rfl, fun key => ?_⟩
      rw [stored_append, stored_single, ← h key]
      by_cases hkey : q.memoKey = key
      · subst hkey
        rw [h q.memoKey, hs]
        rfl
      · simp [hkey]

def serveBlocks (c : Converters) : List BlockCall → Desk → Counters → List Answer
  | [], _, _ => []
  | q :: rest, d, n =>
    let a := serveBlock c q d n
    a :: serveBlocks c rest a.desk a.counters

/-- The result of a call on a desk that was never used. -/
def fresh (c : Converters) (q : BlockCall) : Conversion :=
  (serveBlock c q .empty .zero).conversion

theorem fresh_eq_outcome (q : BlockCall) : fresh c q = q.outcome c := by
  rw [fresh, (serveBlock_step empty_remembers q .zero).1, resultAfter]
  split <;> rfl

/-- A result kept for the first call would be right for the second. -/
def Reusable (c : Converters) (p q : BlockCall) : Prop :=
  p.isMemoisable = true → q.isMemoisable = true → p.memoKey = q.memoKey →
    (fresh c p).cacheable = true →
      q.OriginReadable c ∧ ((fresh c p).bearsPlace = true → q.place = p.place)

theorem reusable_iff {p q : BlockCall} : Reusable c p q ↔
    (p.isMemoisable = true → q.isMemoisable = true → p.memoKey = q.memoKey →
      (p.outcome c).cacheable = true → q.outcome c = p.outcome c) := by
  unfold Reusable
  simp only [fresh_eq_outcome]
  constructor
  · exact fun h hp hq hkey hc => (BlockCall.outcome_eq_iff hkey hc).2 (h hp hq hkey hc)
  · exact fun h hp hq hkey hc => (BlockCall.outcome_eq_iff hkey hc).1 (h hp hq hkey hc)

theorem resultAfter_eq_iff {past : List BlockCall} (hpast : past.Pairwise (Reusable c))
    (q : BlockCall) : resultAfter c past q = q.outcome c ↔ ∀ p ∈ past, Reusable c p q := by
  unfold resultAfter stored
  cases hq : q.isMemoisable with
  | false => simp [Reusable, hq]
  | true =>
    simp only [if_true]
    cases hfind : past.find? fun p =>
        p.isMemoisable && decide (p.memoKey = q.memoKey) && (p.outcome c).cacheable with
    | none =>
      simp only [Option.map_none, Option.getD_none, true_iff]
      intro p hp
      have hno := List.find?_eq_none.1 hfind p hp
      rw [reusable_iff]
      intro hm _ hkey hc
      simp [hm, hkey, hc] at hno
    | some p₀ =>
      -- the call that was kept comes before every other call with its key
      obtain ⟨hfit, as, bs, rfl, hbefore⟩ := List.find?_eq_some_iff_append.1 hfind
      simp only [Bool.and_eq_true, decide_eq_true_eq] at hfit
      obtain ⟨⟨hm₀, hkey₀⟩, hc₀⟩ := hfit
      simp only [Option.map_some, Option.getD_some]
      constructor
      · intro h p hp
        rw [reusable_iff]
        intro hm _ hkey hc
        rcases List.mem_append.1 hp with hp | hp
        · have := hbefore p hp
          simp [hm, hkey, hc] at this
        · rcases List.mem_cons.1 hp with rfl | hp
          · exact h.symm
          · have hlater := (List.pairwise_cons.1 (List.pairwise_append.1 hpast).2.1).1 p hp
            rw [reusable_iff] at hlater
            rw [hlater hm₀ hm (hkey₀.trans hkey.symm) hc₀]
            exact h.symm
      · intro h
        have := h p₀ (by simp)
        rw [reusable_iff] at this
        exact (this hm₀ hq hkey₀ hc₀).symm

theorem serveBlocks_eq_iff (calls past : List BlockCall) {d : Desk} (n : Counters)
    (hd : Remembers c past d) (hpast : past.Pairwise (Reusable c)) :
    (serveBlocks c calls d n).map Answer.conversion = calls.map (BlockCall.outcome c) ↔
      (past ++ calls).Pairwise (Reusable c) := by
  induction calls generalizing past d n with
  | nil => simp [serveBlocks, hpast]
  | cons q rest ih =>
    obtain ⟨hfirst, hnext⟩ := serveBlock_step hd q n
    have hq := resultAfter_eq_iff hpast q
    simp only [serveBlocks, List.map_cons, List.cons.injEq, hfirst, hq]
    constructor
    · rintro ⟨hall, hrest⟩
      have hpast' : (past ++ [q]).Pairwise (Reusable c) :=
        List.pairwise_append.2 ⟨hpast, List.pairwise_singleton _ _, by simpa using hall⟩
      have := (ih (past ++ [q]) _ hnext hpast').1 hrest
      rwa [List.append_assoc] at this
    · intro h
      have hsplit : ((past ++ [q]) ++ rest).Pairwise (Reusable c) := by
        rwa [List.append_assoc]
      have hpast' := (List.pairwise_append.1 hsplit).1
      have hall := (List.pairwise_append.1 hpast').2.2
      exact ⟨fun p hp => hall p hp q (by simp), (ih (past ++ [q]) _ hnext hpast').2 hsplit⟩

/-- Every call in a sequence has the result of the same call on an unused desk just when, of any two
calls in it, what would be kept for the earlier one is right for the later one. -/
theorem conversions_eq_fresh_iff (c : Converters) (calls : List BlockCall) (n : Counters) :
    (serveBlocks c calls .empty n).map Answer.conversion = calls.map (fresh c) ↔
      calls.Pairwise (Reusable c) := by
  have hfresh : calls.map (fresh c) = calls.map (BlockCall.outcome c) :=
    List.map_congr_left fun q _ => fresh_eq_outcome q
  rw [hfresh]
  simpa using serveBlocks_eq_iff calls [] n empty_remembers List.Pairwise.nil

def signVersion (platform space : String) (template : Option Template)
    (rules : ByName (List Rule)) : VersionData :=
  { VersionData.ofMeta ⟨platform, ⟨1, 13, 2⟩, 0, .blockstate⟩ with
    block := ⟨none, some ⟨.ofList [(space, .ofList [("sign", ⟨∅, ∅, template⟩)])], rules, ∅⟩⟩ }

/-- Signs have a tree in the universal form, which no rule paints. -/
def signConverters : Converters where
  version := signVersion "java" "minecraft" none
    (.ofList [("minecraft", .ofList [("sign", [.newBlock "universal_minecraft:sign"])])])
  universal := signVersion "universal" "universal_minecraft"
    (some ⟨⟨"universal_minecraft", "sign"⟩, "", .compound, .compound []⟩) ∅
  scripts := ∅
  prepopulate := true

def signCall (place : Coords) : BlockCall :=
  ⟨.toUniversal, .new ⟨"minecraft", "sign"⟩ ∅, none, false, none, some place⟩

def signCalls : List BlockCall := [signCall ⟨1, 2, 3⟩, signCall ⟨4, 5, 6⟩]

def blockEntityPlaces (ts : List Conversion) : List (Option Coords) :=
  ts.map fun t => t.extraOutput.map BlockEntity.location

/-- The second sign is served with the block entity of the first, at the place of the first. -/
theorem conversions_ne_fresh_signs :
    (serveBlocks signConverters signCalls .empty .zero).map Answer.conversion ≠
      signCalls.map (fresh signConverters) := by
  intro h
  have hserved : blockEntityPlaces
      ((serveBlocks signConverters signCalls .empty .zero).map Answer.conversion) =
        [some ⟨1, 2, 3⟩, some ⟨1, 2, 3⟩] := rfl
  have hfresh : blockEntityPlaces (signCalls.map (fresh signConverters)) =
      [some ⟨1, 2, 3⟩, some ⟨4, 5, 6⟩] := rfl
  rw [h, hfresh] at hserved
  simp at hserved

end Desk

end BlockConvert
