import BlockConvert.Proofs.Interpreter.Equations
import BlockConvert.Proofs.Rule.Induction

set_option autoImplicit false

/-!
# What the rules decide only grows

A run never takes back what was decided before it: missing data stays noted, a result that depends
on more than the record stays so, edits are appended, properties and the name of the output are
never removed. A rule notes missing data only after it has noted that it looks beyond the record.
-/

namespace BlockConvert

structure State.Grows (s t : State) : Prop where
  extraNeeded : s.extraNeeded = true → t.extraNeeded = true
  cacheable : s.cacheable = false → t.cacheable = false
  edits : s.edits <+: t.edits
  properties : ∀ key, (s.properties.get? key).isSome → (t.properties.get? key).isSome
  outputId : s.outputId.isSome → t.outputId.isSome
  outputKind : s.outputKind.isSome → t.outputKind.isSome
  missing : (s.extraNeeded = true → s.cacheable = false) →
    t.extraNeeded = true → t.cacheable = false

namespace State

variable {s t u : State}

theorem Grows.refl (s : State) : s.Grows s :=
  ⟨id, id, List.prefix_refl _, fun _ => id, id, id, id⟩

theorem Grows.trans (h : s.Grows t) (k : t.Grows u) : s.Grows u where
  extraNeeded := k.extraNeeded ∘ h.extraNeeded
  cacheable := k.cacheable ∘ h.cacheable
  edits := h.edits.trans k.edits
  properties key := k.properties key ∘ h.properties key
  outputId := k.outputId ∘ h.outputId
  outputKind := k.outputKind ∘ h.outputKind
  missing := k.missing ∘ h.missing

theorem grows_of_flags (hextra : t.extraNeeded = s.extraNeeded) (hcache : t.cacheable = s.cacheable)
    (hedits : s.edits <+: t.edits)
    (hprops : ∀ key, (s.properties.get? key).isSome → (t.properties.get? key).isSome)
    (hid : s.outputId.isSome → t.outputId.isSome)
    (hkind : s.outputKind.isSome → t.outputKind.isSome) : s.Grows t :=
  ⟨by rw [hextra]; exact id, by rw [hcache]; exact id, hedits, hprops, hid, hkind,
    by rw [hextra, hcache]; exact id⟩

theorem isSome_get?_extend {α : Type} (d : Dict α) (entries : List (String × α)) (key : String)
    (h : (d.get? key).isSome) : ((d.extend entries).get? key).isSome := by
  induction entries generalizing d with
  | nil => exact h
  | cons e rest ih =>
    apply ih (d.insert e.1 e.2)
    rw [Dict.get?_insert]
    split
    · rfl
    · exact h

theorem grows_withProperties (s : State) (ps : List (String × Tag)) :
    s.Grows (s.withProperties ps) :=
  grows_of_flags rfl rfl (List.prefix_refl _)
    (fun key h => isSome_get?_extend s.properties ps key h) id id

theorem grows_withEdits (s : State) (es : List Edit) : s.Grows (s.withEdits es) :=
  grows_of_flags rfl rfl (List.prefix_append _ _) (fun _ => id) id id

theorem grows_outputId (s : State) (id : String) : s.Grows { s with outputId := some id } :=
  grows_of_flags rfl rfl (List.prefix_refl _) (fun _ h => h) (fun _ => rfl) (fun h => h)

theorem grows_outputKind (s : State) (kind : RecordKind) :
    s.Grows { s with outputKind := some kind } :=
  grows_of_flags rfl rfl (List.prefix_refl _) (fun _ => id) id (fun _ => rfl)

theorem grows_named (s : State) (id : String) (kind : RecordKind) : s.Grows (s.named id kind) :=
  (grows_outputId s id).trans (grows_outputKind _ kind)

theorem grows_uncacheable (s : State) : s.Grows s.uncacheable :=
  ⟨id, fun _ => rfl, List.prefix_refl _, fun _ => id, id, id, fun _ _ => rfl⟩

theorem grows_needingExtra (h : s.cacheable = false) : s.Grows s.needingExtra :=
  ⟨fun _ => rfl, id, List.prefix_refl _, fun _ => id, id, id, fun _ _ => h⟩

end State

namespace Action

def Grows (a : Action) : Prop := ∀ (f : Frame) (s : State), s.Grows (a f s).state

def GrowsBeyond (a : Action) : Prop :=
  ∀ (f : Frame) (s : State), s.cacheable = false → s.Grows (a f s).state

variable {a b : Action}

theorem Grows.beyond (h : a.Grows) : a.GrowsBeyond := fun f s _ => h f s

theorem andThen_state_of_failure {f : Frame} {s : State} {e : ConversionError}
    (h : (a f s).failure = some e) : (a.andThen b) f s = a f s := by
  simp [andThen, Outcome.andThen, h]

theorem andThen_state {f : Frame} {s : State} (h : (a f s).failure = none) :
    ((a.andThen b) f s).state = (b f (a f s).state).state := by
  simp [andThen, Outcome.andThen, h]

theorem andThen_failure {f : Frame} {s : State} (h : (a f s).failure = none) :
    ((a.andThen b) f s).failure = (b f (a f s).state).failure := by
  simp [andThen, Outcome.andThen, h]

theorem skip_grows : skip.Grows := fun _ s => State.Grows.refl s

theorem fail_grows (e : ConversionError) : (fail e).Grows := fun _ s => State.Grows.refl s

theorem notify_grows (n : Notice) : (notify n).Grows := fun _ s => State.Grows.refl s

theorem update_grows {change : State → State} (h : ∀ s : State, s.Grows (change s)) :
    (update change).Grows := fun _ s => h s

theorem needExtra_growsBeyond : needExtra.GrowsBeyond := fun _ _ h => State.grows_needingExtra h

theorem Grows.andThen (ha : a.Grows) (hb : b.Grows) : (a.andThen b).Grows := by
  intro f s
  cases h : (a f s).failure with
  | some e =>
    rw [andThen_state_of_failure h]
    exact ha f s
  | none =>
    rw [andThen_state h]
    exact (ha f s).trans (hb f _)

theorem GrowsBeyond.andThen (ha : a.GrowsBeyond) (hb : b.GrowsBeyond) :
    (a.andThen b).GrowsBeyond := by
  intro f s hs
  have h1 := ha f s hs
  cases h : (a f s).failure with
  | some e =>
    rw [andThen_state_of_failure h]
    exact h1
  | none =>
    rw [andThen_state h]
    exact h1.trans (hb f _ (h1.cacheable hs))

theorem sequence_grows {as : List Action} (h : ∀ a ∈ as, a.Grows) : (sequence as).Grows := by
  induction as with
  | nil => exact skip_grows
  | cons a rest ih =>
    exact Grows.andThen (h a (by simp)) (ih fun b hb => h b (List.mem_cons_of_mem _ hb))

theorem sequence_growsBeyond {as : List Action} (h : ∀ a ∈ as, a.GrowsBeyond) :
    (sequence as).GrowsBeyond := by
  induction as with
  | nil => exact skip_grows.beyond
  | cons a rest ih =>
    exact GrowsBeyond.andThen (h a (by simp)) (ih fun b hb => h b (List.mem_cons_of_mem _ hb))

theorem beyondRecord_apply (a : Action) (f : Frame) (s : State) :
    beyondRecord a f s = a f s.uncacheable := by
  simp [beyondRecord, andThen, update]

theorem beyondRecord_grows (h : a.GrowsBeyond) : (beyondRecord a).Grows := by
  intro f s
  rw [beyondRecord_apply]
  exact (State.grows_uncacheable s).trans (h f _ rfl)

theorem beyondRecord_uncacheable (a : Action) (f : Frame) (s : State) :
    beyondRecord a f s.uncacheable = beyondRecord a f s := by
  rw [beyondRecord_apply, beyondRecord_apply]
  rfl

theorem onBlock_grows {rule : String} {body : Block → Action} (h : ∀ b, (body b).Grows) :
    (onBlock rule body).Grows := by
  intro f s
  unfold onBlock
  split
  · exact h _ f s
  · exact State.Grows.refl s

theorem atCursor_growsBeyond {rule : String} {body : Cursor → Action}
    (h : ∀ c, (body c).GrowsBeyond) : (atCursor rule body).GrowsBeyond := by
  intro f s hs
  unfold atCursor
  split
  · exact h _ f s hs
  · exact needExtra_growsBeyond f s hs
  · exact State.Grows.refl s

theorem paint_grows (entries : List NewTag) : (paint entries).Grows :=
  fun _ s => State.grows_withEdits s _

theorem carryAtCursor_growsBeyond (c : Carry) :
    (atCursor "carry_nbt" fun cursor =>
      match c.edit cursor with
      | .ok e => update (·.withEdits [e])
      | .error e => fail e).GrowsBeyond := by
  apply atCursor_growsBeyond
  intro cursor
  split
  · exact (update_grows fun s => State.grows_withEdits s _).beyond
  · exact (fail_grows _).beyond

theorem carry_grows (c : Carry) : (carry c).Grows :=
  beyondRecord_grows (carryAtCursor_growsBeyond c)

theorem collect_growsBeyond {body : List ScriptValue → Action}
    (h : ∀ vs, (body vs).GrowsBeyond) (inputs : List ScriptInput) :
    (collect body inputs).GrowsBeyond := by
  induction inputs generalizing body with
  | nil => exact h []
  | cons i rest ih =>
    intro f s hs
    have noted : s.Grows (if i.isMissing f then s.needingExtra else s) := by
      split
      · exact State.grows_needingExtra hs
      · exact State.Grows.refl s
    simp only [collect]
    split
    · exact noted.trans (ih (fun vs => h (_ :: vs)) f _ (noted.cacheable hs))
    · exact noted

theorem use_grows (script : String) (slot : ScriptOutput) (value : ScriptValue) :
    (use script slot value).Grows := by
  unfold use
  split
  · exact update_grows fun s => State.grows_outputId s _
  · split
    · exact update_grows fun s => State.grows_outputKind s _
    · exact fail_grows _
  · exact update_grows fun s => State.grows_withProperties s _
  · exact update_grows fun s => State.grows_withEdits s _
  · exact fail_grows _

def useAll (c : ScriptCall) (returned : Except ScriptError (List ScriptValue)) : Action :=
  match returned with
  | .ok values => sequence (List.zipWith (use c.script) c.outputs values)
  | .error e => fail (.script e)

theorem call_eq_collect (scripts : Scripts) (c : ScriptCall) :
    call scripts c = beyondRecord
      (collect (fun args => useAll c (scripts.call c.script args)) c.inputs) := rfl

theorem useAll_grows (c : ScriptCall) (returned : Except ScriptError (List ScriptValue)) :
    (useAll c returned).Grows := by
  unfold useAll
  split
  · apply sequence_grows
    intro a ha
    rw [← List.map_uncurry_zip_eq_zipWith] at ha
    obtain ⟨⟨slot, value⟩, _, rfl⟩ := List.mem_map.1 ha
    exact use_grows c.script slot value
  · exact fail_grows _

theorem collect_useAll_growsBeyond (scripts : Scripts) (c : ScriptCall) :
    (collect (fun args => useAll c (scripts.call c.script args)) c.inputs).GrowsBeyond :=
  collect_growsBeyond (fun _ => (useAll_grows c _).beyond) c.inputs

end Action

namespace Rule

open BlockConvert.Action

variable {r : Resources}

theorem onNeighbour_growsBeyond {lookup : Lookup} {offset : Coords} {a : Action}
    (h : a.GrowsBeyond) : (onNeighbour lookup offset a).GrowsBeyond := by
  intro f s hs
  unfold onNeighbour
  dsimp only
  split
  · exact State.Grows.refl s
  · split
    · exact State.Grows.refl s
    · exact h _ s hs

theorem atPath_growsBeyond {path : Option Path} {a : Cursor → Action}
    (h : ∀ c, (a c).GrowsBeyond) : (atPath path a).GrowsBeyond := by
  intro f s hs
  unfold atPath
  split
  · exact needExtra_growsBeyond f s hs
  · split
    · exact h _ _ s hs
    · split
      · exact State.Grows.refl s
      · split
        · split
          · exact h _ _ s hs
          · exact State.Grows.refl s
        · exact h _ _ s hs

theorem visitChildren_growsBeyond {cursor : Cursor} {visit : PathKey → Cursor → Action}
    (h : ∀ key c, (visit key c).GrowsBeyond) : (visitChildren cursor visit).GrowsBeyond := by
  apply sequence_growsBeyond
  intro a ha
  obtain ⟨⟨key, child⟩, _, rfl⟩ := List.mem_map.1 ha
  intro f s hs
  exact h key _ _ s hs

theorem carryUnaccounted_grows (cursor : Cursor) : (carryUnaccounted cursor).Grows :=
  (notify_grows _).andThen (carry_grows .same)

theorem carryMistyped_grows (cursor : Cursor) : (carryMistyped cursor).Grows := by
  unfold carryMistyped
  split
  · exact skip_grows
  · exact carry_grows .same

theorem runAll_grows_of {rules : List Rule} (h : ∀ rule ∈ rules, (run r rule).Grows) :
    (runAll r rules).Grows := by
  rw [runAll_eq_sequence]
  apply sequence_grows
  intro a ha
  obtain ⟨rule, hrule, rfl⟩ := List.mem_map.1 ha
  exact h rule hrule

theorem optional_runAll_grows {rules : Option (List Rule)} {otherwise : Action}
    (hother : otherwise.Grows) (h : ∀ rs, rules = some rs → ∀ rule ∈ rs, (run r rule).Grows) :
    ((rules.map (runAll r)).getD otherwise).Grows := by
  cases rules with
  | none => exact hother
  | some rs => exact runAll_grows_of (h rs rfl)

theorem get_runAll_grows {κ : Type} [DecidableEq κ] {cases : List (κ × List Rule)} {key : κ}
    {otherwise : Action} (hother : otherwise.Grows)
    (h : ∀ k rules, (k, rules) ∈ cases → ∀ rule ∈ rules, (run r rule).Grows) :
    (((Table.get? cases key).map (runAll r)).getD otherwise).Grows := by
  apply optional_runAll_grows hother
  intro rules hget
  exact h key rules (Table.mem_of_get?_eq_some hget)

theorem casesOf_mem {b : Block} {key : String} {cs : List (Tag × List Rule)} {rule : Rule}
    (h : rule ∈ casesOf b key cs) : ∃ t rules, (t, rules) ∈ cs ∧ rule ∈ rules := by
  unfold casesOf at h
  cases hv : b.properties.get? key with
  | none => simp [hv] at h
  | some v =>
    cases hget : Table.get? cs v with
    | none => simp [hv, hget] at h
    | some rules =>
      exact ⟨v, rules, Table.mem_of_get?_eq_some hget, by simpa [hv, hget] using h⟩

theorem run_hereditary (r : Resources) : Hereditary (fun rule => (run r rule).Grows)
    fun node => ∀ cursor, (walkNode r node cursor).GrowsBeyond where
  newBlock id := update_grows fun s => State.grows_named s id .block
  newEntity id := update_grows fun s => State.grows_named s id .entity
  newProperties ps := update_grows fun s => State.grows_withProperties s ps.entries
  carryProperties allowed := onBlock_grows fun b =>
    update_grows fun s => State.grows_withProperties s (carried allowed b)
  mapProperties cases inner := by
    apply onBlock_grows
    intro b
    rw [runPropertyCases_eq_sequence]
    apply sequence_grows
    intro a ha
    obtain ⟨⟨key, cs⟩, hcs, rfl⟩ := List.mem_map.1 ha
    apply runAll_grows_of
    intro rule hrule
    obtain ⟨t, rules, ht, hmem⟩ := casesOf_mem hrule
    exact inner key cs hcs t rules ht rule hmem
  mapBlockName cases inner := by
    apply onBlock_grows
    intro b
    rw [caseNamed_eq_get]
    exact get_runAll_grows skip_grows inner
  multiblock parts inner := by
    apply beyondRecord_grows
    split
    · exact needExtra_growsBeyond
    · rw [runParts_eq_sequence]
      apply sequence_growsBeyond
      intro a ha
      obtain ⟨⟨offset, rules⟩, hpart, rfl⟩ := List.mem_map.1 ha
      exact onNeighbour_growsBeyond (runAll_grows_of (inner offset rules hpart)).beyond
  walk path node inner := beyondRecord_grows (atPath_growsBeyond inner)
  newTags entries := paint_grows entries
  carryTag c := carry_grows c
  mapTag cases otherwise inner rest := by
    apply beyondRecord_grows
    apply atCursor_growsBeyond
    intro cursor
    have hrest := runAll_grows_of rest
    rw [optionalCase_eq_get]
    cases cases with
    | none => exact hrest.beyond
    | some cs => exact (get_runAll_grows hrest (inner cs rfl)).beyond
  script c := beyondRecord_grows (collect_useAll_growsBeyond r.scripts c)
  node kind rules keys indices childDefault selfDefault own atKeys atIndices child self := by
    intro cursor
    rw [walkNode_eq_visitChild]
    apply GrowsBeyond.andThen (runAll_grows_of own).beyond
    split
    · apply visitChildren_growsBeyond
      intro key c
      unfold visitChild
      split
      · rename_i n hn
        rcases childNode_mem hn with ⟨k, hk⟩ | ⟨i, hi⟩
        · exact atKeys k n hk c
        · exact atIndices i n hi c
      · exact (optional_runAll_grows (carryUnaccounted_grows c) child).beyond
    · exact (optional_runAll_grows (carryMistyped_grows cursor) self).beyond

theorem run_grows (r : Resources) (rule : Rule) : (run r rule).Grows :=
  (run_hereditary r).rule rule

theorem runAll_grows (r : Resources) (rules : List Rule) : (runAll r rules).Grows :=
  runAll_grows_of fun rule _ => run_grows r rule

/-- The rules that look at more than the record, whatever they find there. -/
def looksBeyond : Rule → Bool
  | .multiblock _ | .walk _ _ | .carryTag _ | .mapTag _ _ | .script _ => true
  | _ => false

theorem run_uncacheable_of_looksBeyond {rule : Rule} (h : rule.looksBeyond = true) (f : Frame)
    (s : State) : run r rule f s.uncacheable = run r rule f s := by
  cases rule with
  | multiblock _ | walk _ _ | carryTag _ | mapTag _ _ | script _ =>
    exact beyondRecord_uncacheable _ f s
  | _ => simp [looksBeyond] at h

theorem cacheable_of_looksBeyond {rule : Rule} (h : rule.looksBeyond = true) (f : Frame)
    (s : State) : (run r rule f s).state.cacheable = false := by
  rw [← run_uncacheable_of_looksBeyond h]
  exact (run_grows r rule f s.uncacheable).cacheable rfl

end Rule

end BlockConvert
