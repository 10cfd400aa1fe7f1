import BlockConvert.Proofs.Conversion.Completeness
import BlockConvert.Proofs.Interpreter.Keeping
import BlockConvert.Proofs.Table.Lookup

set_option autoImplicit false

/-!
# Where outputs come from

Without scripts, the name and the properties of a block that comes out are written in the rules, or
in the defaults of its specification. A property that is carried over has one of the values that the
rule lists for it, whatever the record, the blocks around and the trees hold.
-/

namespace BlockConvert

namespace Rule

def Names (rules : List Rule) (id : String) : Prop :=
  ∃ enclosing, Stands rules enclosing (.newBlock id)

/-- The rule list writes the property, or lists it among those that it carries over. -/
def Grants (rules : List Rule) (key : String) (v : Tag) : Prop :=
  (∃ enclosing ps, Stands rules enclosing (.newProperties ps) ∧ ps.get? key = some v) ∨
    ∃ enclosing allowed vs, Stands rules enclosing (.carryProperties allowed) ∧
      allowed.get? key = some vs ∧ v ∈ vs

end Rule

structure State.Contained (rules : List Rule) (s : State) : Prop where
  name : s.outputKind = some .block → ∀ id, s.outputId = some id → Rule.Names rules id
  entry : ∀ key v, s.properties.get? key = some v → Rule.Grants rules key v

namespace State

variable {rules : List Rule} {s t : State}

theorem fresh_contained (rules : List Rule) : fresh.Contained rules :=
  ⟨nofun, nofun⟩

theorem Contained.congr (h : s.Contained rules) (hid : t.outputId = s.outputId)
    (hkind : t.outputKind = s.outputKind) (hproperties : t.properties = s.properties) :
    t.Contained rules :=
  ⟨by rw [hid, hkind]; exact h.name, by rw [hproperties]; exact h.entry⟩

theorem Contained.named {id : String} {kind : RecordKind} (h : s.Contained rules)
    (hname : kind = .block → Rule.Names rules id) : (s.named id kind).Contained rules :=
  ⟨fun hkind _ hid => Option.some.inj hid ▸ hname (Option.some.inj hkind), h.entry⟩

theorem Contained.withProperties {ps : List (String × Tag)} (h : s.Contained rules)
    (hps : ∀ key v, (key, v) ∈ ps → Rule.Grants rules key v) :
    (s.withProperties ps).Contained rules := by
  refine ⟨h.name, fun key v hget => ?_⟩
  rcases Dict.mem_or_get?_of_extend hget with hmem | hold
  · exact hps key v hmem
  · exact h.entry key v hold

end State

namespace Rule

open BlockConvert.Action

variable {r : Resources} {rules : List Rule} {enclosing : List Enclosure} {f : Frame} {s : State}

theorem grants_carried {allowed : Dict (List Tag)}
    (hstands : Stands rules enclosing (.carryProperties allowed)) (b : Block) {key : String}
    {v : Tag} (h : (key, v) ∈ carried allowed b) : Grants rules key v := by
  obtain ⟨⟨k, vs⟩, hmem, hcarried⟩ := List.mem_filterMap.1 h
  obtain ⟨w, -, hw⟩ := Option.bind_eq_some_iff.1 hcarried
  split at hw
  · rename_i hallowed
    cases hw
    exact .inr ⟨enclosing, allowed, vs, hstands, Dict.get?_of_mem hmem, hallowed⟩
  · contradiction

theorem atCursor_contained {rule : String} {body : Cursor → Action}
    (hbody : ∀ c s, s.Contained rules → (body c f s).state.Contained rules)
    (hs : s.Contained rules) : (atCursor rule body f s).state.Contained rules := by
  unfold atCursor
  split
  · exact hbody _ s hs
  · exact hs.congr rfl rfl rfl
  · exact hs

theorem carry_contained (c : Carry) (hs : s.Contained rules) :
    (carry c f s).state.Contained rules := by
  rw [carry, beyondRecord_apply]
  refine atCursor_contained (fun cursor t ht => ?_) (hs.congr rfl rfl rfl)
  cases c.edit cursor with
  | ok e => exact ht.congr rfl rfl rfl
  | error e => exact ht

theorem own_contained {step : Rule} (hstands : Stands rules enclosing step)
    (hscript : ∀ c, step ≠ .script c) (hs : s.Contained rules) :
    (own r step f s).state.Contained rules := by
  have hnoted : s.uncacheable.Contained rules := hs.congr rfl rfl rfl
  cases step with
  | newBlock id => exact hs.named fun _ => ⟨enclosing, hstands⟩
  | newEntity id => exact hs.named nofun
  | newProperties ps =>
    exact hs.withProperties fun key v h => .inl ⟨enclosing, ps, hstands, Dict.get?_of_mem h⟩
  | carryProperties allowed =>
    simp only [own, run, onBlock]
    split
    · exact hs.withProperties fun key v h => grants_carried hstands _ h
    · exact hs
  | mapProperties _ | mapBlockName _ =>
    simp only [own, onBlock]
    split <;> exact hs
  | multiblock _ | walk _ _ =>
    simp only [own, beyondRecord_apply]
    split
    · exact hnoted
    · exact hnoted.congr rfl rfl rfl
  | newTags entries => exact hs.congr rfl rfl rfl
  | carryTag c => exact carry_contained c hs
  | mapTag _ _ =>
    simp only [own, beyondRecord_apply]
    exact atCursor_contained (fun _ _ ht => ht) hnoted
  | script c => exact absurd rfl (hscript c)

theorem runAll_contained (hscript : ScriptFree rules) (hs : s.Contained rules) :
    (runAll r rules f s).state.Contained rules := by
  have hsteps : StepsKeep (State.Contained rules) (fun _ => True) r rules f := by
    intro enclosing g step hreach t ht
    refine ⟨?_, fun _ _ => trivial⟩
    rcases hreach.stands with hstands | ⟨-, rfl⟩
    · exact own_contained hstands (hscript enclosing step hstands) ht
    · exact carry_contained .same ht
  exact (runAll_keeps hsteps s hs).1

end Rule

def Specification.Admits (spec : Specification) (key : String) (v : Tag) : Prop :=
  ∃ vs, spec.valid.get? key = some vs ∧ v ∈ vs

namespace Request

variable {q : Request}

theorem outputName_eq_ok {s : State} {id : RecordId} {kind : RecordKind}
    (h : outputName s = .ok (id, kind)) :
    s.outputId = some id.text ∧ s.outputKind = some kind := by
  unfold outputName at h
  split at h
  · rename_i hid hkind
    split at h
    · rename_i hread
      cases h
      exact ⟨by rw [hid, RecordId.text_of_ofText? hread], hkind⟩
    · contradiction
  · contradiction

theorem buildBlock_output (q : Request) (id : RecordId) (spec : Specification) (s : State) :
    (q.buildBlock id spec s).1.output =
      .block (.new id (spec.defaults.extend s.properties.entries)) := by
  unfold buildBlock
  dsimp only
  split <;> rfl

/-- A block that is built has the name that the rules decided, and the properties that they decided
over the defaults of its specification. -/
theorem build_block {s : State} {t : Conversion} {ns : List Notice} {out : Block}
    (h : q.build s = .ok (t, ns)) (hout : t.output = .block out) :
    ∃ spec, q.target.block.specification q.format out.id = .ok spec ∧
      s.outputKind = some .block ∧ s.outputId = some out.id.text ∧
      out = .new out.id (spec.defaults.extend s.properties.entries) := by
  unfold build at h
  split at h
  · contradiction
  · rename_i id kind hname
    obtain ⟨hid, hkind⟩ := outputName_eq_ok hname
    dsimp only at h
    split at h
    · contradiction
    · rename_i spec hspec
      cases kind with
      | entity =>
        cases h
        contradiction
      | block =>
        have hpair := Except.ok.inj h
        have hblock := buildBlock_output q id spec s
        rw [hpair, hout] at hblock
        cases hblock
        exact ⟨spec, hspec, hkind, hid, rfl⟩

/-- Without scripts, the block that comes out is named in the rules, and each of its properties is a
default of its specification or granted by the rules. So it stays within what its specification
declares, if the defaults and the grants do. -/
theorem output_contained (q : Request) (t : Conversion) (out : Block)
    (hscript : Rule.ScriptFree q.rules) (hresult : q.run.result = .ok t)
    (hout : t.output = .block out) :
    ∃ spec, q.target.block.specification q.format out.id = .ok spec ∧
      Rule.Names q.rules out.id.text ∧ out.layers = [] ∧
      (∀ key v, out.properties.get? key = some v →
        spec.defaults.get? key = some v ∨ Rule.Grants q.rules key v) ∧
      ((∀ key v, spec.defaults.get? key = some v ∨ Rule.Grants q.rules key v →
          spec.Admits key v) →
        ∀ key v, out.properties.get? key = some v → spec.Admits key v) := by
  obtain ⟨tree, ns, -, -, hbuild⟩ := run_eq_ok hresult
  obtain ⟨spec, hspec, hkind, hid, hblock⟩ := build_block hbuild hout
  have hstate : (q.decide tree).state.Contained q.rules :=
    Rule.runAll_contained hscript (State.fresh_contained q.rules)
  have hentries : ∀ key v, out.properties.get? key = some v →
      spec.defaults.get? key = some v ∨ Rule.Grants q.rules key v := by
    intro key v hget
    rw [hblock] at hget
    rcases Dict.mem_or_get?_of_extend hget with hmem | hdefault
    · exact .inr (hstate.entry key v (Dict.get?_of_mem hmem))
    · exact .inl hdefault
  refine ⟨spec, hspec, hstate.name hkind _ hid, by rw [hblock]; rfl, hentries, ?_⟩
  exact fun hdeclared key v hget => hdeclared key v (hentries key v hget)

/-- The kind of wood is that of the log above, the axis is that of the log itself. -/
def gatedRules : List Rule :=
  [.newBlock "universal_minecraft:log",
    .carryProperties (.ofList [("axis", [.string "x", .string "y"])]),
    .multiblock [.mk ⟨0, 1, 0⟩ [.mapBlockName [("minecraft:log",
      [.carryProperties (.ofList [("variant", [.string "birch"])])])]]]]

theorem gatedRules_scriptFree : Rule.ScriptFree gatedRules := by
  refine Rule.throughout_cons nofun nofun (Rule.throughout_cons nofun nofun
    (Rule.throughout_cons nofun (fun e inner h => ?_) Rule.throughout_nil))
  cases h with
  | part hpart =>
    cases List.mem_singleton.1 hpart
    refine Rule.throughout_cons nofun (fun e inner h => ?_) Rule.throughout_nil
    cases h with
    | nameCase hcase =>
      cases List.mem_singleton.1 hcase
      exact Rule.throughout_cons nofun nofun Rule.throughout_nil

def gatedRequest : Request where
  input := .block Rule.birchLog
  specification := .empty
  rules := gatedRules
  target := universalLogs
  forceBlockstate := true
  resources := Rule.amongLogs
  extraInput := none
  prepopulate := true
  location := none

def gatedLog : Block := .new ⟨"universal_minecraft", "log"⟩ (.ofList
  [("axis", .string "x"), ("material", .string "oak"), ("variant", .string "birch")])

def gatedConversion : Conversion where
  output := .block gatedLog
  extraOutput := some ⟨⟨"universal_minecraft", "log"⟩, .origin, .empty⟩
  extraNeeded := false
  cacheable := false

theorem output_contained_gatedLog :
    Rule.ScriptFree gatedRequest.rules ∧ gatedRequest.run.result = .ok gatedConversion ∧
    gatedConversion.output = .block gatedLog ∧
    ∃ spec, gatedRequest.target.block.specification gatedRequest.format gatedLog.id = .ok spec ∧
      Rule.Names gatedRules gatedLog.id.text ∧ gatedLog.layers = [] ∧
      (∀ key v, gatedLog.properties.get? key = some v →
        spec.defaults.get? key = some v ∨ Rule.Grants gatedRules key v) ∧
      ((∀ key v, spec.defaults.get? key = some v ∨ Rule.Grants gatedRules key v →
          spec.Admits key v) →
        ∀ key v, gatedLog.properties.get? key = some v → spec.Admits key v) :=
  ⟨gatedRules_scriptFree, rfl, rfl,
    output_contained gatedRequest gatedConversion gatedLog gatedRules_scriptFree rfl rfl⟩

end Request

end BlockConvert
