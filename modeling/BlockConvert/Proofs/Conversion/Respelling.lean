import BlockConvert.Proofs.Conversion.Containment
import Mathlib.Data.List.Nodup
import Mathlib.Tactic.Choose

set_option autoImplicit false

/-!
# Properties under other names

A block may go by another name in the output, keep some of its properties, and have the others under
other names with other values. Where no two names and no two values fall together, the rules for the
way back restore the block, since each way is the same kind of rule list and the relation between
the properties on both sides can be read in either direction.
-/

namespace BlockConvert

/-- A property that has another name in the output, with what each of its values becomes there. -/
structure Respelling where
  source : String
  target : String
  values : List (Tag × Tag)

namespace Respelling

def flip (m : Respelling) : Respelling := ⟨m.target, m.source, m.values.map Prod.swap⟩

/-- For each value of the property, the rule that writes what it becomes. -/
def byValue (m : Respelling) : String × List (Tag × List Rule) :=
  (m.source, Table.ofEntries
    (m.values.map fun e => (e.1, [.newProperties (.ofList [(m.target, e.2)])])))

end Respelling

def Rule.respelling (target : RecordId) (kept : Dict (List Tag)) (ms : List Respelling) :
    List Rule :=
  [.newBlock target.text, .carryProperties kept, .mapProperties (ms.map Respelling.byValue)]

/-- No two names and no two values of a property fall together. -/
structure OneToOne (kept : Dict (List Tag)) (ms : List Respelling) : Prop where
  sources : (ms.map Respelling.source).Nodup
  targets : (ms.map Respelling.target).Nodup
  apart : ∀ m ∈ ms, kept.get? m.source = none ∧ kept.get? m.target = none
  values : ∀ m ∈ ms, (m.values.map Prod.fst).Nodup ∧ (m.values.map Prod.snd).Nodup

def Concerns (kept : Dict (List Tag)) (ms : List Respelling) (key : String) : Prop :=
  (kept.get? key).isSome ∨ key ∈ ms.map Respelling.source

instance (kept : Dict (List Tag)) (ms : List Respelling) (key : String) :
    Decidable (Concerns kept ms key) := inferInstanceAs (Decidable (_ ∨ _))

/-- The properties are exactly those that are carried or respelled, with values for which that is
possible. -/
structure Covered (kept : Dict (List Tag)) (ms : List Respelling) (ps : Properties) : Prop where
  carried : ∀ key vs, kept.get? key = some vs → ∃ v ∈ vs, ps.get? key = some v
  respelled : ∀ m ∈ ms, ∃ e ∈ m.values, ps.get? m.source = some e.1
  only : ∀ key v, ps.get? key = some v → Concerns kept ms key

/-- The second properties are the first ones, some carried and the others respelled. -/
structure Respells (kept : Dict (List Tag)) (ms : List Respelling) (ps qs : Properties) :
    Prop where
  carried : ∀ key vs, kept.get? key = some vs →
    ∃ v ∈ vs, ps.get? key = some v ∧ qs.get? key = some v
  respelled : ∀ m ∈ ms, ∃ e ∈ m.values,
    ps.get? m.source = some e.1 ∧ qs.get? m.target = some e.2
  source : ∀ key v, ps.get? key = some v → Concerns kept ms key
  target : ∀ key v, qs.get? key = some v → Concerns kept (ms.map Respelling.flip) key

variable {kept : Dict (List Tag)} {ms back : List Respelling} {ps qs qs' : Properties}
  {m : Respelling} {key : String} {v w : Tag}

theorem eq_of_nodup_keys {α β : Type} {entries : List (α × β)} (h : (entries.map Prod.fst).Nodup)
    {k : α} {x y : β} (hx : (k, x) ∈ entries) (hy : (k, y) ∈ entries) : x = y :=
  congrArg Prod.snd (List.inj_on_of_nodup_map h hx hy rfl)

namespace Respelling

theorem flip_flip (m : Respelling) : m.flip.flip = m := by
  simp [flip]

theorem mem_flip : (v, w) ∈ m.flip.values ↔ (w, v) ∈ m.values := by
  simp [flip]

theorem map_flip_map_flip (ms : List Respelling) : (ms.map flip).map flip = ms := by
  simp [Function.comp_def, flip_flip]

theorem map_source_flip (ms : List Respelling) : (ms.map flip).map source = ms.map target := by
  simp [Function.comp_def, flip]

theorem map_target_flip (ms : List Respelling) : (ms.map flip).map target = ms.map source := by
  simp [Function.comp_def, flip]

end Respelling

theorem OneToOne.flip (h : OneToOne kept ms) : OneToOne kept (ms.map Respelling.flip) where
  sources := by rw [Respelling.map_source_flip]; exact h.targets
  targets := by rw [Respelling.map_target_flip]; exact h.sources
  apart := List.forall_mem_map.2 fun m hm => (h.apart m hm).symm
  values := List.forall_mem_map.2 fun m hm => by
    simpa [Respelling.flip, Function.comp_def] using (h.values m hm).symm

theorem OneToOne.perm (h : OneToOne kept ms) (hperm : back.Perm ms) : OneToOne kept back where
  sources := (hperm.map _).nodup_iff.2 h.sources
  targets := (hperm.map _).nodup_iff.2 h.targets
  apart m hm := h.apart m (hperm.mem_iff.1 hm)
  values m hm := h.values m (hperm.mem_iff.1 hm)

theorem Concerns.perm (h : Concerns kept ms key) (hperm : back.Perm ms) :
    Concerns kept back key := h.imp_right (hperm.map _).mem_iff.2

theorem Respells.perm (h : Respells kept ms ps qs) (hperm : back.Perm ms) :
    Respells kept back ps qs where
  carried := h.carried
  respelled m hm := h.respelled m (hperm.mem_iff.1 hm)
  source key v hv := (h.source key v hv).perm hperm
  target key v hv := (h.target key v hv).perm (hperm.map _)

/-- Read the other way round, the respellings lead back. -/
theorem Respells.flip (h : Respells kept ms ps qs) :
    Respells kept (ms.map Respelling.flip) qs ps where
  carried key vs hvs := by
    obtain ⟨v, hv, hp, hq⟩ := h.carried key vs hvs
    exact ⟨v, hv, hq, hp⟩
  respelled := List.forall_mem_map.2 fun m hm => by
    obtain ⟨⟨v, w⟩, he, hp, hq⟩ := h.respelled m hm
    exact ⟨(w, v), Respelling.mem_flip.2 he, hq, hp⟩
  source := h.target
  target := by
    rw [Respelling.map_flip_map_flip]
    exact h.source

theorem Respells.covered (h : Respells kept ms ps qs) : Covered kept ms ps where
  carried key vs hvs := by
    obtain ⟨v, hv, hp, -⟩ := h.carried key vs hvs
    exact ⟨v, hv, hp⟩
  respelled m hm := by
    obtain ⟨e, he, hp, -⟩ := h.respelled m hm
    exact ⟨e, he, hp⟩
  only := h.source

theorem Respells.get?_eq_some (h : Respells kept ms ps qs) (hone : OneToOne kept ms)
    (h' : Respells kept ms ps qs') (hv : qs.get? key = some v) : qs'.get? key = some v := by
  rcases h.target key v hv with hcarried | hmem
  · obtain ⟨vs, hvs⟩ := Option.isSome_iff_exists.1 hcarried
    obtain ⟨u, -, hp, hq⟩ := h.carried key vs hvs
    obtain ⟨u', -, hp', hq'⟩ := h'.carried key vs hvs
    have hsame : u = u' := Option.some.inj (hp.symm.trans hp')
    rw [hq', ← hsame, ← hq, hv]
  · rw [Respelling.map_source_flip] at hmem
    obtain ⟨m, hm, rfl⟩ := List.mem_map.1 hmem
    obtain ⟨⟨u, x⟩, he, hp, hq⟩ := h.respelled m hm
    obtain ⟨⟨u', x'⟩, he', hp', hq'⟩ := h'.respelled m hm
    obtain rfl : u = u' := Option.some.inj (hp.symm.trans hp')
    obtain rfl : x = x' := eq_of_nodup_keys (hone.values m hm).1 he he'
    rw [hq', ← hq, hv]

theorem Respells.unique (h : Respells kept ms ps qs) (hone : OneToOne kept ms)
    (h' : Respells kept ms ps qs') : qs = qs' :=
  Dict.ext_get? fun _ => Option.ext fun _ =>
    ⟨fun hv => h.get?_eq_some hone h' hv, fun hv => h'.get?_eq_some hone h hv⟩

namespace Rule

variable {r : Resources} {b : Block}

theorem get?_byValue (hvalues : (m.values.map Prod.fst).Nodup) (h : (v, w) ∈ m.values) :
    Table.get? m.byValue.2 v = some [.newProperties (.ofList [(m.target, w)])] := by
  have hcase : (v, [newProperties (.ofList [(m.target, w)])]) ∈
      m.values.map fun e => (e.1, [newProperties (.ofList [(m.target, e.2)])]) :=
    List.mem_map.2 ⟨(v, w), h, rfl⟩
  refine Table.get?_extend_of_mem hcase fun rules hrules => ?_
  obtain ⟨⟨u, x⟩, he, heq⟩ := List.mem_map.1 hrules
  cases heq
  rw [eq_of_nodup_keys hvalues he h]

theorem runPropertyCases_byValue {value : Respelling → Tag}
    (hone : ∀ m ∈ ms, (m.values.map Prod.fst).Nodup)
    (h : ∀ m ∈ ms, ∃ v, b.properties.get? m.source = some v ∧ (v, value m) ∈ m.values) (f : Frame)
    (s : State) : runPropertyCases r (ms.map Respelling.byValue) b f s =
      .done (s.withProperties (ms.map fun m => (m.target, value m))) := by
  induction ms generalizing s with
  | nil => rfl
  | cons m rest ih =>
    obtain ⟨v, hv, hmem⟩ := h m (by simp)
    have hcase : caseFor r m.byValue.2 v =
        some (Action.update (·.withProperties [(m.target, value m)])) := by
      rw [caseFor_eq_get, get?_byValue (hone m (by simp)) hmem, Option.map_some, runAll, runAll]
      rfl
    have hget : b.properties.get? m.byValue.1 = some v := hv
    have hrest := ih (fun n hn => hone n (List.mem_cons_of_mem _ hn))
      fun n hn => h n (List.mem_cons_of_mem _ hn)
    simp only [List.map_cons, runPropertyCases, hget, Option.bind_some, hcase, Option.getD_some,
      Action.andThen, Action.update, Outcome.done_andThen, hrest]
    rfl

theorem mem_carried {allowed : Dict (List Tag)} : (key, v) ∈ Rule.carried allowed b ↔
    ∃ vs, allowed.get? key = some vs ∧ v ∈ vs ∧ b.properties.get? key = some v := by
  constructor
  · intro h
    obtain ⟨⟨k, vs⟩, hmem, hcarried⟩ := List.mem_filterMap.1 h
    obtain ⟨u, hu, hif⟩ := Option.bind_eq_some_iff.1 hcarried
    split at hif
    · cases hif
      exact ⟨vs, Dict.get?_of_mem hmem, by assumption, hu⟩
    · contradiction
  · rintro ⟨vs, hvs, hv, hget⟩
    refine List.mem_filterMap.2 ⟨(key, vs), Table.mem_of_get?_eq_some hvs, ?_⟩
    simp [hget, hv]

theorem runAll_respelling {value : Respelling → Tag} (target : RecordId)
    (hone : ∀ m ∈ ms, (m.values.map Prod.fst).Nodup)
    (h : ∀ m ∈ ms, ∃ v, b.properties.get? m.source = some v ∧ (v, value m) ∈ m.values) {f : Frame}
    (hrecord : f.record = .block b) (s : State) :
    runAll r (respelling target kept ms) f s =
      .done (((s.named target.text .block).withProperties (Rule.carried kept b)).withProperties
        (ms.map fun m => (m.target, value m))) := by
  simp only [respelling, runAll, run, Action.andThen, Action.update, Action.onBlock, hrecord,
    Outcome.done_andThen, runPropertyCases_byValue hone h]
  rfl

end Rule

/-- The properties that the rules decide: those that are carried, then those that are respelled. -/
def decidedProperties (kept : Dict (List Tag)) (ms : List Respelling) (value : Respelling → Tag)
    (b : Block) : Properties :=
  ((∅ : Properties).extend (Rule.carried kept b)).extend (ms.map fun m => (m.target, value m))

section

variable {value : Respelling → Tag} {b : Block} {vs : List Tag}

theorem get?_decided_carried (hone : OneToOne kept ms) (hvs : kept.get? key = some vs) (hv : v ∈ vs)
    (hget : b.properties.get? key = some v) :
    (decidedProperties kept ms value b).get? key = some v := by
  have hapart : ∀ w, (key, w) ∉ ms.map fun m => (m.target, value m) := by
    intro w hw
    obtain ⟨m, hm, heq⟩ := List.mem_map.1 hw
    cases heq
    rw [(hone.apart m hm).2] at hvs
    contradiction
  rw [decidedProperties, Dict.get?_extend_of_not_mem hapart]
  refine Dict.get?_extend_of_mem (Rule.mem_carried.2 ⟨vs, hvs, hv, hget⟩) fun w hw => ?_
  obtain ⟨-, -, -, hget'⟩ := Rule.mem_carried.1 hw
  exact Option.some.inj (hget'.symm.trans hget)

theorem get?_decided_respelled (hone : OneToOne kept ms) (hm : m ∈ ms) :
    (decidedProperties kept ms value b).get? m.target = some (value m) := by
  refine Dict.get?_extend_of_mem (List.mem_map.2 ⟨m, hm, rfl⟩) fun w hw => ?_
  obtain ⟨n, hn, heq⟩ := List.mem_map.1 hw
  obtain ⟨htarget, rfl⟩ := Prod.mk.inj heq
  rw [List.inj_on_of_nodup_map hone.targets hn hm htarget]

theorem concerns_of_decided (h : (decidedProperties kept ms value b).get? key = some v) :
    Concerns kept (ms.map Respelling.flip) key := by
  rcases Dict.mem_or_get?_of_extend h with hrespelled | hold
  · obtain ⟨m, hm, heq⟩ := List.mem_map.1 hrespelled
    cases heq
    right
    rw [Respelling.map_source_flip]
    exact List.mem_map_of_mem hm
  · rcases Dict.mem_or_get?_of_extend hold with hcarried | hnone
    · obtain ⟨vs, hvs, -⟩ := Rule.mem_carried.1 hcarried
      exact .inl (Option.isSome_iff_exists.2 ⟨vs, hvs⟩)
    · contradiction

/-- What the rules decide over the defaults respells the properties of the block. -/
theorem respells_decided (hone : OneToOne kept ms) (hcovered : Covered kept ms b.properties)
    (h : ∀ m ∈ ms, ∃ v, b.properties.get? m.source = some v ∧ (v, value m) ∈ m.values)
    {defaults : Properties}
    (hdefaults : ∀ key v, defaults.get? key = some v →
      Concerns kept (ms.map Respelling.flip) key) :
    Respells kept ms b.properties
      (defaults.extend (decidedProperties kept ms value b).entries) where
  carried key vs hvs := by
    obtain ⟨v, hv, hget⟩ := hcovered.carried key vs hvs
    refine ⟨v, hv, hget, ?_⟩
    rw [Dict.get?_extend_entries, get?_decided_carried hone hvs hv hget, Option.some_or]
  respelled m hm := by
    obtain ⟨v, hv, hmem⟩ := h m hm
    refine ⟨(v, value m), hmem, hv, ?_⟩
    rw [Dict.get?_extend_entries, get?_decided_respelled hone hm, Option.some_or]
  source := hcovered.only
  target key v hv := by
    rw [Dict.get?_extend_entries] at hv
    rcases Option.or_eq_some_iff.1 hv with hdecided | ⟨-, hdefault⟩
    · exact concerns_of_decided hdecided
    · exact hdefaults key v hdefault

end

namespace Conversion

structure Yields (t : Conversion) (b : Block) : Prop where
  output : t.output = .block b
  extraNeeded : t.extraNeeded = false
  cacheable : t.cacheable = true

end Conversion

namespace Request

theorem build_of_named {q : Request} {s : State} {id : RecordId} {spec : Specification}
    (hid : s.outputId = some id.text) (hkind : s.outputKind = some .block)
    (hname : RecordId.ofText? id.text = some id)
    (hspec : q.target.block.specification q.format id = .ok spec) :
    q.build s = .ok (q.buildBlock id spec s) := by
  simp only [build, outputName, hid, hkind, hname, hspec]

/-- A covered block comes out under the other name, with its properties respelled. -/
theorem run_respelling {q : Request} {b : Block} {target : RecordId} {spec : Specification}
    (hinput : q.input = .block b) (hrules : q.rules = Rule.respelling target kept ms)
    (hextra : q.extraInput = none) (hlookup : q.resources.lookup = none)
    (hname : RecordId.ofText? target.text = some target)
    (hspec : q.target.block.specification q.format target = .ok spec)
    (hdefaults : ∀ key v, spec.defaults.get? key = some v →
      Concerns kept (ms.map Respelling.flip) key)
    (hone : OneToOne kept ms) (hcovered : Covered kept ms b.properties) :
    ∃ t qs, q.run.result = .ok t ∧ t.Yields (.new target qs) ∧
      Respells kept ms b.properties qs := by
  have hvalues : ∀ m ∈ ms, ∃ w v, b.properties.get? m.source = some v ∧ (v, w) ∈ m.values := by
    intro m hm
    obtain ⟨e, he, hget⟩ := hcovered.respelled m hm
    exact ⟨e.2, e.1, hget, he⟩
  choose! value hvalue using hvalues
  have htree : q.inputTree = .ok none := inputTree_of_nothing hinput hextra hlookup
  have hdecide : q.decide none = .done (((State.fresh.named target.text .block).withProperties
      (Rule.carried kept b)).withProperties (ms.map fun m => (m.target, value m))) := by
    rw [decide, hrules]
    exact Rule.runAll_respelling target (fun m hm => (hone.values m hm).1) hvalue hinput .fresh
  have hbuild : q.build (q.decide none).state =
      .ok (q.buildBlock target spec (q.decide none).state) := by
    rw [hdecide]
    exact build_of_named rfl rfl hname hspec
  obtain ⟨hneeded, hcacheable⟩ := build_flags hbuild
  refine ⟨_, _, run_of_build htree (by rw [hdecide]; rfl) hbuild,
    ⟨buildBlock_output q target spec _, ?_, ?_⟩, ?_⟩
  · rw [hneeded, hdecide]
    rfl
  · rw [hcacheable, hdecide]
    rfl
  · rw [hdecide]
    exact respells_decided hone hcovered hvalue hdefaults

end Request

end BlockConvert
