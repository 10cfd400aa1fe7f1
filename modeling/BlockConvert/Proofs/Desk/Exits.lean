import BlockConvert.Proofs.Desk.Misses

set_option autoImplicit false

/-!
# How a call ends

A call is served from the memo, or it has no entry, or its conversion fails, or it is converted.
Each of these leaves its own mark in the memo and in the counters. A block that comes with a block
entity passes the memo by.
-/

namespace BlockConvert

namespace Call

/-- The key of a block that comes without a block entity; nothing else is looked up or kept. -/
def memoKey? : Call → Option MemoKey
  | block q => if q.isMemoisable then some q.memoKey else none
  | entity _ => none

def gain (q : Call) (t : Conversion) : Memo :=
  match q.memoKey? with
  | some key => if t.cacheable then [(key, t)] else []
  | none => []

def Yields (c : Converters) (q : Call) (t : Conversion) : Prop :=
  ∃ route, q.route c = .ok route ∧ (q.request c route).run.result = .ok t

end Call

namespace Counters

/-- A call that is not served from the memo was a miss if it has a key. -/
def asked (n : Counters) (q : Call) : Counters := if q.memoKey?.isSome then n.countMiss else n

def countResult (n : Counters) (extraNeeded : Bool) : Counters :=
  if extraNeeded then n.countConversion.countExtraNeeded else n.countConversion

end Counters

namespace Desk

inductive Exit (c : Converters) (q : Call) (d : Desk) (n : Counters) (a : Answer) : Prop
  | hit (key : MemoKey) (asks : q.memoKey? = some key)
      (found : d.memo.lookup key = some a.conversion)
      (memo : a.desk.memo = d.memo)
      (counters : a.counters = n.countHit)
  | missing (cause : NotFound) (route : q.route c = .error cause)
      (conversion : a.conversion = .unchanged q.record q.extraInput false)
      (memo : a.desk.memo = d.memo)
      (counters : a.counters = (n.asked q).countMissing)
  | failing (fails : q.Fails c)
      (conversion : a.conversion = .unchanged q.record q.extraInput true)
      (memo : a.desk.memo = d.memo)
      (counters : a.counters = (n.asked q).countConversion.countFailure.countExtraNeeded)
  | converted (yields : q.Yields c a.conversion)
      (unseen : ∀ key, q.memoKey? = some key → d.memo.lookup key = none)
      (memo : a.desk.memo = q.gain a.conversion ++ d.memo)
      (counters : a.counters = (n.asked q).countResult a.conversion.extraNeeded)

variable {c : Converters} {d : Desk} {n : Counters} {q : Call} {a : Answer}

theorem handBack_counters {kind : RecordKind} {record : Record} {direction : Direction}
    {extraInput : Option BlockEntity} {cause : NotFound} :
    (handBack c kind record direction extraInput cause d n).counters = n.countMissing := by
  unfold handBack
  dsimp only
  split <;> rfl

theorem exit_of_handBack {cause : NotFound} (hroute : q.route c = .error cause)
    (ha : a = handBack c q.kind q.record q.direction q.extraInput cause d (n.asked q)) :
    Exit c q d n a := by
  subst ha
  exact .missing cause hroute handBack_conversion handBack_memo handBack_counters

theorem input_request (q : Call) (route : Route) : (q.request c route).input = q.record := by
  cases q <;> rfl

theorem extraInput_request (q : Call) (route : Route) :
    (q.request c route).extraInput = q.extraInput := by
  cases q <;> rfl

/-- The counters are those of the conversion, and the memo has gained what it may keep. -/
theorem exit_of_convert {route : Route} (hroute : q.route c = .ok route)
    (unseen : ∀ key, q.memoKey? = some key → d.memo.lookup key = none)
    (hconversion : a.conversion =
      (convert c q.direction (q.request c route) d (n.asked q)).conversion)
    (hmemo : a.desk.memo = q.gain a.conversion ++ d.memo)
    (hcounters : a.counters =
      (convert c q.direction (q.request c route) d (n.asked q)).counters) :
    Exit c q d n a := by
  cases hresult : (q.request c route).run.result with
  | ok t =>
    simp only [convert, hresult] at hconversion hcounters
    refine .converted ⟨route, hroute, hconversion ▸ hresult⟩ unseen hmemo ?_
    rw [hcounters, hconversion]
    rfl
  | error e =>
    simp only [convert, hresult, input_request, extraInput_request] at hconversion hcounters
    refine .failing ⟨route, e, hroute, hresult⟩ hconversion ?_ hcounters
    rw [hmemo, hconversion]
    unfold Call.gain
    split <;> rfl

section Keep

variable {b : BlockCall}

theorem keep_conversion : (keep b a).conversion = a.conversion := by
  unfold keep
  split <;> rfl

theorem keep_counters : (keep b a).counters = a.counters := by
  unfold keep
  split <;> rfl

theorem keep_memo :
    (keep b a).desk.memo = (Call.block b).gain a.conversion ++ a.desk.memo := by
  cases hm : b.isMemoisable <;> cases hc : a.conversion.cacheable <;>
    simp [keep, Call.gain, Call.memoKey?, hm, hc]

theorem serveNew_exit
    (unseen : ∀ key, (Call.block b).memoKey? = some key → d.memo.lookup key = none) :
    Exit c (.block b) d n (serveNew c b d (n.asked (.block b))) := by
  cases hroute : (Call.block b).route c with
  | error cause =>
    refine exit_of_handBack hroute ?_
    have hroute' : c.route .block b.direction b.forceBlockstate b.block.id = .error cause := hroute
    simp only [serveNew, hroute']
    rfl
  | ok route =>
    have hroute' : c.route .block b.direction b.forceBlockstate b.block.id = .ok route := hroute
    simp only [serveNew, hroute']
    refine exit_of_convert hroute unseen keep_conversion ?_ keep_counters
    rw [keep_memo, keep_conversion, convert_desk]

end Keep

/-- Every call ends in one of the ways. -/
theorem serve_exit (c : Converters) (q : Call) (d : Desk) (n : Counters) :
    Exit c q d n (serve c q d n) := by
  cases q with
  | block b =>
    cases hm : b.isMemoisable with
    | false =>
      have hnew := serveNew_exit (c := c) (d := d) (n := n) (b := b) (by simp [Call.memoKey?, hm])
      simpa only [serve, serveBlock, hm, Counters.asked, Call.memoKey?, Bool.false_eq_true,
        if_false, Option.isSome_none] using hnew
    | true =>
      have hkey : (Call.block b).memoKey? = some b.memoKey := by simp [Call.memoKey?, hm]
      cases hlookup : d.memo.lookup b.memoKey with
      | some t =>
        simp only [serve, serveBlock, hm, if_true, hlookup]
        exact .hit b.memoKey hkey hlookup rfl rfl
      | none =>
        have hnew := serveNew_exit (c := c) (d := d) (n := n) (b := b) fun key h => by
          rw [hkey] at h
          obtain rfl := Option.some.inj h
          exact hlookup
        simpa only [serve, serveBlock, hm, hlookup, Counters.asked, hkey, if_true,
          Option.isSome_some] using hnew
  | entity e =>
    cases hroute : (Call.entity e).route c with
    | error cause =>
      refine exit_of_handBack hroute ?_
      have hroute' : c.route .entity e.direction e.forceBlockstate e.entity.id = .error cause :=
        hroute
      simp only [serve, serveEntity, hroute']
      rfl
    | ok route =>
      have hroute' : c.route .entity e.direction e.forceBlockstate e.entity.id = .ok route :=
        hroute
      simp only [serve, serveEntity, hroute']
      refine exit_of_convert hroute (by simp [Call.memoKey?]) rfl ?_ rfl
      rw [convert_desk]
      rfl

/-- What is kept is neither dropped nor replaced. -/
theorem Exit.memo_suffix (h : Exit c q d n a) : d.memo <:+ a.desk.memo := by
  cases h with
  | hit _ _ _ memo => exact memo ▸ List.suffix_rfl
  | missing _ _ _ memo => exact memo ▸ List.suffix_rfl
  | failing _ _ memo => exact memo ▸ List.suffix_rfl
  | converted _ _ memo => exact memo ▸ List.suffix_append ..

/-- A block that comes with a block entity neither reads the memo nor changes it: with another memo
the answer is the same, and that memo is left as it is. -/
theorem serveBlock_withMemo {b : BlockCall} (hextra : b.extraInput.isSome = true) (memo : Memo) :
    serveBlock c b { d with memo := memo } n =
      { serveBlock c b d n with desk := { (serveBlock c b d n).desk with memo := memo } } := by
  have hm : b.isMemoisable = false := by
    simpa [BlockCall.isMemoisable, Option.isNone_iff_eq_none, Option.isSome_iff_ne_none]
      using hextra
  simp only [serveBlock, hm, Bool.false_eq_true, if_false, serveNew]
  cases c.route .block b.direction b.forceBlockstate b.block.id with
  | error cause =>
    have hreported : Desk.reported { d with memo := memo } .block = d.reported .block := rfl
    simp only [handBack, hreported]
    split <;> rfl
  | ok route =>
    simp only [keep, hm, Bool.false_and, Bool.false_eq_true, if_false, convert]
    split <;> rfl

end Desk

end BlockConvert
