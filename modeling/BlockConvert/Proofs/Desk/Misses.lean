import BlockConvert.Proofs.Conversion.Notices
import BlockConvert.Proofs.Desk.Reuse
import Mathlib.Data.List.Induction

set_option autoImplicit false

/-!
# Missing entries and failures are contained

A call without an entry and a call that fails hand back what they were given, and leave the memo and
the results of all later calls as they are. The first call that misses an entry reports it, once for
each kind of record, name, direction and layout. A kept result does not get in the way: its key has
an entry, so that a call without one is never served from the memo.
-/

namespace BlockConvert

inductive Call where
  | block (q : BlockCall)
  | entity (q : EntityCall)

namespace Call

def kind : Call → RecordKind
  | block _ => .block
  | entity _ => .entity

def record : Call → Record
  | block q => .block q.block
  | entity q => .entity q.entity

def direction : Call → Direction
  | block q => q.direction
  | entity q => q.direction

def extraInput : Call → Option BlockEntity
  | block q => q.extraInput
  | entity _ => none

def route (c : Converters) : Call → Except NotFound Route
  | block q => q.route c
  | entity q => c.route .entity q.direction q.forceBlockstate q.entity.id

def request (c : Converters) (route : Route) : Call → Request
  | block q => q.request c route
  | entity q => c.request route (.entity q.entity) none none none

def missingKey? (c : Converters) (q : Call) : Option MissingKey :=
  match q.route c with
  | .ok _ => none
  | .error cause => some ⟨q.record.id.text, q.direction, cause.format⟩

def Misses (c : Converters) (kind : RecordKind) (key : MissingKey) (q : Call) : Prop :=
  q.kind = kind ∧ q.missingKey? c = some key

instance (c : Converters) (kind : RecordKind) (key : MissingKey) (q : Call) :
    Decidable (q.Misses c kind key) := inferInstanceAs (Decidable (_ ∧ _))

/-- There is an entry, but the conversion fails. -/
def Fails (c : Converters) (q : Call) : Prop :=
  ∃ route e, q.route c = .ok route ∧ (q.request c route).run.result = .error e

/-- There is no entry, or the conversion fails. -/
def GoesWrong (c : Converters) (q : Call) : Prop :=
  (∃ cause, q.route c = .error cause) ∨ q.Fails c

def block? : Call → Option BlockCall
  | block q => some q
  | entity _ => none

end Call

namespace Desk

def serve (c : Converters) : Call → Desk → Counters → Answer
  | .block q => serveBlock c q
  | .entity q => serveEntity c q

def next (c : Converters) (s : Desk × Counters) (q : Call) : Desk × Counters :=
  ((serve c q s.1 s.2).desk, (serve c q s.1 s.2).counters)

def after (c : Converters) (calls : List Call) : Desk × Counters :=
  calls.foldl (next c) (.empty, .zero)

def answer (c : Converters) (past : List Call) (q : Call) : Answer :=
  serve c q (after c past).1 (after c past).2

def Holds (d : Desk) : Call → Prop
  | .block q => q.isMemoisable = true ∧ (d.memo.lookup q.memoKey).isSome
  | .entity _ => False

variable {c : Converters} {d : Desk} {n : Counters} {past : List Call} {q : Call}

theorem after_append (past : List Call) (q : Call) :
    after c (past ++ [q]) = ((answer c past q).desk, (answer c past q).counters) := by
  rw [after, List.foldl_append]
  rfl

/-! ## Handing back -/

theorem isMissing_missingNotice (s : Subject) (cause : NotFound) :
    (missingNotice s cause).isMissing = true := by
  unfold missingNotice
  split
  · split <;> rfl
  · rfl

section HandBack

variable {kind : RecordKind} {record : Record} {direction : Direction}
  {extraInput : Option BlockEntity} {cause : NotFound}

theorem handBack_conversion :
    (handBack c kind record direction extraInput cause d n).conversion =
      .unchanged record extraInput false := by
  unfold handBack
  dsimp only
  split <;> rfl

theorem handBack_memo :
    (handBack c kind record direction extraInput cause d n).desk.memo = d.memo := by
  unfold handBack
  dsimp only
  split
  · rfl
  · cases kind <;> rfl

theorem mem_reported_report {key other : MissingKey} {kind' : RecordKind} :
    other ∈ (d.report key kind).reported kind' ↔
      other ∈ d.reported kind' ∨ kind = kind' ∧ key = other := by
  cases kind <;> cases kind' <;> simp [report, reported, or_comm, eq_comm]

theorem mem_reported_handBack {kind' : RecordKind} {key : MissingKey} :
    key ∈ (handBack c kind record direction extraInput cause d n).desk.reported kind' ↔
      key ∈ d.reported kind' ∨ kind = kind' ∧ ⟨record.id.text, direction, cause.format⟩ = key := by
  unfold handBack
  dsimp only
  split
  · rename_i hmem
    refine ⟨.inl, ?_⟩
    rintro (hold | ⟨rfl, rfl⟩)
    · exact hold
    · exact hmem
  · exact mem_reported_report

theorem handBack_notices :
    (handBack c kind record direction extraInput cause d n).notices.filter Notice.isMissing =
      if ⟨record.id.text, direction, cause.format⟩ ∈ d.reported kind then []
      else [missingNotice (c.subject record direction) cause] := by
  unfold handBack
  dsimp only
  split
  · rfl
  · exact List.filter_cons_of_pos (isMissing_missingNotice _ _)

end HandBack

/-! ## One call -/

structure Follows (c : Converters) (past : List Call) (d : Desk) : Prop where
  remembers : Remembers c (past.filterMap Call.block?) d
  reported : ∀ kind key, key ∈ d.reported kind ↔ ∃ p ∈ past, p.Misses c kind key

theorem lookup_of_error {blocks : List BlockCall} {q : BlockCall} {cause : NotFound}
    (hd : Remembers c blocks d) (h : q.route c = .error cause) :
    d.memo.lookup q.memoKey = none := by
  rw [hd, stored, Option.map_eq_none_iff, List.find?_eq_none]
  intro p _ hp
  simp only [Bool.and_eq_true, decide_eq_true_eq] at hp
  obtain ⟨⟨-, hkey⟩, hcacheable⟩ := hp
  obtain ⟨route, hroute, -⟩ := BlockCall.outcome_of_cacheable hcacheable
  rw [BlockCall.route_of_memoKey hkey, hroute] at h
  contradiction

theorem serve_of_error {cause : NotFound} (hd : Follows c past d) (h : q.route c = .error cause) :
    ∃ n', serve c q d n =
      handBack c q.kind q.record q.direction q.extraInput cause d n' := by
  cases q with
  | entity q =>
    refine ⟨n, ?_⟩
    have hroute : c.route .entity q.direction q.forceBlockstate q.entity.id = .error cause := h
    simp only [serve, serveEntity, hroute]
    rfl
  | block q =>
    have hroute : c.route .block q.direction q.forceBlockstate q.block.id = .error cause := h
    have hnew : ∀ n', serveNew c q d n' =
        handBack c .block (.block q.block) q.direction q.extraInput cause d n' := fun n' => by
      simp only [serveNew, hroute]
    have hlookup := lookup_of_error hd.remembers h
    rw [serve, serveBlock]
    split
    · rw [hlookup]
      exact ⟨n.countMiss, hnew _⟩
    · exact ⟨n, hnew n⟩

theorem convert_desk (c : Converters) (direction : Direction) (q : Request) (d : Desk)
    (n : Counters) : (convert c direction q d n).desk = d := by
  unfold convert
  dsimp only
  split <;> rfl

theorem convert_notices (c : Converters) (direction : Direction) (q : Request) (d : Desk)
    (n : Counters) : (convert c direction q d n).notices.filter Notice.isMissing = [] := by
  have hrun : q.run.notices.filter Notice.isMissing = [] :=
    List.filter_eq_nil_iff.2 fun n hn => by simp [Request.run_isMissing q n hn]
  unfold convert
  dsimp only
  split
  · exact hrun
  · rw [List.filter_append, hrun]
    rfl

theorem keep_reported (q : BlockCall) (a : Answer) (kind : RecordKind) :
    (keep q a).desk.reported kind = a.desk.reported kind := by
  unfold keep
  split
  · cases kind <;> rfl
  · rfl

theorem keep_notices (q : BlockCall) (a : Answer) : (keep q a).notices = a.notices := by
  unfold keep
  split <;> rfl

theorem serve_of_ok {route : Route} (h : q.route c = .ok route) :
    (∀ kind, (serve c q d n).desk.reported kind = d.reported kind) ∧
      (serve c q d n).notices.filter Notice.isMissing = [] := by
  cases q with
  | entity q =>
    have hroute : c.route .entity q.direction q.forceBlockstate q.entity.id = .ok route := h
    simp only [serve, serveEntity, hroute, convert_desk, convert_notices]
    exact ⟨fun _ => trivial, trivial⟩
  | block q =>
    have hroute : c.route .block q.direction q.forceBlockstate q.block.id = .ok route := h
    have hnew : ∀ n', (∀ kind, (serveNew c q d n').desk.reported kind = d.reported kind) ∧
        (serveNew c q d n').notices.filter Notice.isMissing = [] := fun n' => by
      simp only [serveNew, hroute, keep_reported, keep_notices, convert_desk, convert_notices]
      exact ⟨fun _ => trivial, trivial⟩
    rw [serve, serveBlock]
    split
    · split
      · exact ⟨fun _ => rfl, rfl⟩
      · exact hnew _
    · exact hnew n

theorem serve_notices (hd : Follows c past d) :
    (serve c q d n).notices.filter Notice.isMissing =
      match q.route c with
      | .ok _ => []
      | .error cause =>
        if ⟨q.record.id.text, q.direction, cause.format⟩ ∈ d.reported q.kind then []
        else [missingNotice (c.subject q.record q.direction) cause] := by
  cases h : q.route c with
  | ok route => exact (serve_of_ok h).2
  | error cause =>
    obtain ⟨n', hserve⟩ := serve_of_error (n := n) hd h
    rw [hserve]
    exact handBack_notices

theorem mem_reported_serve (hd : Follows c past d) {kind : RecordKind} {key : MissingKey} :
    key ∈ (serve c q d n).desk.reported kind ↔ key ∈ d.reported kind ∨ q.Misses c kind key := by
  cases h : q.route c with
  | ok route =>
    rw [(serve_of_ok h).1]
    simp [Call.Misses, Call.missingKey?, h]
  | error cause =>
    obtain ⟨n', hserve⟩ := serve_of_error (n := n) hd h
    rw [hserve, mem_reported_handBack]
    simp [Call.Misses, Call.missingKey?, h]

theorem serveEntity_memo (q : EntityCall) : (serveEntity c q d n).desk.memo = d.memo := by
  unfold serveEntity
  split
  · exact handBack_memo
  · rw [convert_desk]

theorem serve_remembers (hd : Follows c past d) :
    Remembers c ((past ++ [q]).filterMap Call.block?) (serve c q d n).desk := by
  rw [List.filterMap_append]
  cases q with
  | block q => exact (serveBlock_step hd.remembers q n).2
  | entity q =>
    intro key
    rw [serve, serveEntity_memo, List.filterMap_cons_none rfl, List.filterMap_nil, List.append_nil]
    exact hd.remembers key

theorem Follows.serve (hd : Follows c past d) (q : Call) (n : Counters) :
    Follows c (past ++ [q]) (serve c q d n).desk := by
  refine ⟨serve_remembers hd, fun kind key => ?_⟩
  rw [mem_reported_serve hd, hd.reported]
  simp only [List.mem_append, List.mem_singleton]
  constructor
  · rintro (⟨p, hp, hmiss⟩ | hmiss)
    · exact ⟨p, .inl hp, hmiss⟩
    · exact ⟨q, .inr rfl, hmiss⟩
  · rintro ⟨p, hp | rfl, hmiss⟩
    · exact .inl ⟨p, hp, hmiss⟩
    · exact .inr hmiss

/-- The induction is on the calls, from the last one. -/
theorem after_follows (c : Converters) (past : List Call) : Follows c past (after c past).1 := by
  induction past using List.reverseRecOn with
  | nil => exact ⟨empty_remembers, fun kind key => by cases kind <;> simp [after, empty, reported]⟩
  | append_singleton past q ih =>
    rw [after_append]
    exact ih.serve q _

/-! ## Runs of calls -/

theorem outcome_of_goesWrong {q : BlockCall} (h : (Call.block q).GoesWrong c) :
    (q.outcome c).cacheable = false := by
  rcases h with ⟨cause, hroute⟩ | ⟨route, e, hroute, hresult⟩
  · have hroute' : q.route c = .error cause := hroute
    simp only [BlockCall.outcome, hroute', Conversion.unchanged]
  · have hroute' : q.route c = .ok route := hroute
    have hresult' : (q.request c route).run.result = .error e := hresult
    simp only [BlockCall.outcome, hroute', hresult', Conversion.unchanged]

theorem serve_memo (h : q.GoesWrong c) : (serve c q d n).desk.memo = d.memo := by
  cases q with
  | entity q => exact serveEntity_memo q
  | block q =>
    have hnew : ∀ n', (serveNew c q d n').desk.memo = d.memo := fun n' => by
      rw [serveNew_memo, outcome_of_goesWrong h, Bool.and_false]
      rfl
    rw [serve, serveBlock]
    split
    · split
      · rfl
      · exact hnew _
    · exact hnew n

theorem serve_missing {cause : NotFound} (hd : Follows c past d) (h : q.route c = .error cause) :
    (serve c q d n).conversion = .unchanged q.record q.extraInput false := by
  obtain ⟨n', hserve⟩ := serve_of_error (n := n) hd h
  rw [hserve, handBack_conversion]

theorem serve_failing (h : q.Fails c) (hheld : ¬d.Holds q) :
    (serve c q d n).conversion = .unchanged q.record q.extraInput true := by
  obtain ⟨route, e, hroute, hresult⟩ := h
  cases q with
  | entity q =>
    have hroute' : c.route .entity q.direction q.forceBlockstate q.entity.id = .ok route := hroute
    have hresult' : (c.request route (.entity q.entity) none none none).run.result = .error e :=
      hresult
    simp only [serve, serveEntity, hroute', convert, hresult']
    rfl
  | block q =>
    have hroute' : q.route c = .ok route := hroute
    have hresult' : (q.request c route).run.result = .error e := hresult
    have hnew : ∀ n', (serveNew c q d n').conversion =
        .unchanged (.block q.block) q.extraInput true := fun n' => by
      rw [serveNew_conversion]
      simp only [BlockCall.outcome, hroute', hresult']
    rw [serve, serveBlock]
    split
    · rename_i hmemoisable
      split
      · rename_i hlookup
        exact absurd ⟨hmemoisable, by rw [hlookup]; rfl⟩ hheld
      · exact hnew _
    · exact hnew n

def conversionAfter (c : Converters) (past : List Call) : Call → Conversion
  | .block q => resultAfter c (past.filterMap Call.block?) q
  | .entity q => (serveEntity c q .empty .zero).conversion

theorem serveEntity_conversion (q : EntityCall) (d d' : Desk) (n n' : Counters) :
    (serveEntity c q d n).conversion = (serveEntity c q d' n').conversion := by
  unfold serveEntity
  split
  · rw [handBack_conversion, handBack_conversion]
  · unfold convert
    dsimp only
    split <;> rfl

theorem answer_conversion (past : List Call) (q : Call) :
    (answer c past q).conversion = conversionAfter c past q := by
  cases q with
  | block q => exact (serveBlock_step (after_follows c past).remembers q _).1
  | entity q => exact serveEntity_conversion q _ _ _ _

theorem stored_skip {before later : List BlockCall} {q : BlockCall}
    (h : (q.outcome c).cacheable = false) (key : MemoKey) :
    stored c (before ++ q :: later) key = stored c (before ++ later) key := by
  simp [stored, List.find?_append, h]

theorem conversionAfter_skip (h : q.GoesWrong c) (past later : List Call) (p : Call) :
    conversionAfter c (past ++ q :: later) p = conversionAfter c (past ++ later) p := by
  cases p with
  | entity p => rfl
  | block p =>
    rw [conversionAfter, conversionAfter, List.filterMap_append, List.filterMap_append]
    cases q with
    | entity q => rw [List.filterMap_cons_none rfl]
    | block q =>
      have hblocks : (Call.block q :: later).filterMap Call.block? =
          q :: later.filterMap Call.block? := rfl
      simp only [hblocks, resultAfter, stored_skip (outcome_of_goesWrong h)]

/-! ## What is reported -/

/-- The first call that misses an entry reports it, and no other call reports it. -/
theorem answer_notices (past : List Call) (q : Call) :
    (answer c past q).notices.filter Notice.isMissing =
      match q.route c with
      | .ok _ => []
      | .error cause =>
        if ∃ p ∈ past, p.Misses c q.kind ⟨q.record.id.text, q.direction, cause.format⟩ then []
        else [missingNotice (c.subject q.record q.direction) cause] := by
  have hd := after_follows c past
  rw [answer, serve_notices hd]
  split
  · rfl
  · simp only [hd.reported]

/-- What calls report under a key when they are served in turn after others. -/
def reports (c : Converters) (kind : RecordKind) (key : MissingKey) :
    (past : List Call) → List Call → List Notice
  | _, [] => []
  | past, q :: rest =>
    (if q.Misses c kind key then (answer c past q).notices.filter Notice.isMissing else []) ++
      reports c kind key (past ++ [q]) rest

theorem length_answer_notices {kind : RecordKind} {key : MissingKey} (h : q.Misses c kind key)
    (past : List Call) : ((answer c past q).notices.filter Notice.isMissing).length =
      if ∃ p ∈ past, p.Misses c kind key then 0 else 1 := by
  obtain ⟨rfl, hkey⟩ := h
  rw [answer_notices]
  cases hroute : q.route c with
  | ok route => simp [Call.missingKey?, hroute] at hkey
  | error cause =>
    simp only [Call.missingKey?, hroute] at hkey
    obtain rfl := Option.some.inj hkey
    dsimp only
    split <;> rfl

theorem length_reports (kind : RecordKind) (key : MissingKey) (past calls : List Call) :
    (reports c kind key past calls).length =
      if (∃ q ∈ calls, q.Misses c kind key) ∧ ¬∃ p ∈ past, p.Misses c kind key then 1 else 0 := by
  induction calls generalizing past with
  | nil => simp [reports]
  | cons q rest ih =>
    have hpast : (∃ p ∈ past ++ [q], p.Misses c kind key) ↔
        (∃ p ∈ past, p.Misses c kind key) ∨ q.Misses c kind key := by
      simp [or_and_right, exists_or]
    have hcalls : (∃ p ∈ q :: rest, p.Misses c kind key) ↔
        q.Misses c kind key ∨ ∃ p ∈ rest, p.Misses c kind key := by
      simp
    rw [reports, List.length_append, ih]
    simp only [hpast, hcalls]
    by_cases hq : q.Misses c kind key
    · rw [if_pos hq, length_answer_notices hq]
      by_cases hearlier : ∃ p ∈ past, p.Misses c kind key <;> simp [hq, hearlier]
    · simp [hq]

/-- What happens to a call, after others, that has no entry or whose conversion fails. -/
structure Contained (c : Converters) (past : List Call) (q : Call) : Prop where
  missing : ∀ cause, q.route c = .error cause →
    (answer c past q).conversion = .unchanged q.record q.extraInput false
  failing : q.Fails c → ¬(after c past).1.Holds q →
    (answer c past q).conversion = .unchanged q.record q.extraInput true
  memo : q.GoesWrong c → (answer c past q).desk.memo = (after c past).1.memo
  later : q.GoesWrong c → ∀ later p,
    (answer c (past ++ q :: later) p).conversion = (answer c (past ++ later) p).conversion
  reported : (answer c past q).notices.filter Notice.isMissing =
    match q.route c with
    | .ok _ => []
    | .error cause =>
      if ∃ p ∈ past, p.Misses c q.kind ⟨q.record.id.text, q.direction, cause.format⟩ then []
      else [missingNotice (c.subject q.record q.direction) cause]

/-- Over any run of calls, what goes wrong with one of them stays with it, and every missing entry
is reported once. -/
theorem misses_contained (c : Converters) : (∀ past q, Contained c past q) ∧
    ∀ calls kind key, (reports c kind key [] calls).length =
      if ∃ q ∈ calls, q.Misses c kind key then 1 else 0 := by
  refine ⟨fun past q => ?_, fun calls kind key => ?_⟩
  · exact {
      missing := fun cause h => serve_missing (after_follows c past) h
      failing := serve_failing
      memo := serve_memo
      later := fun h later p => by
        rw [answer_conversion, answer_conversion, conversionAfter_skip h]
      reported := answer_notices past q }
  · rw [length_reports]
    simp

end Desk

end BlockConvert
