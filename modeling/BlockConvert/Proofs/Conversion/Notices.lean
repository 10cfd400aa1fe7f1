import BlockConvert.Conversion
import BlockConvert.Proofs.Interpreter.Growth

set_option autoImplicit false

/-!
# What a conversion reports

Rules report only what they find around a record and in its tree: a part that is skipped, a tag that
is missing, of another kind or unaccounted for. What is built from their decision may report edits
without a place and a tree without an output. A conversion says nothing of missing entries.
-/

namespace BlockConvert

namespace Notice

inductive IsOfRules : Notice → Prop
  | partSkipped (place : Coords) (cause : Option LookupError) : IsOfRules (.partSkipped place cause)
  | pathMissing (path : Path) : IsOfRules (.pathMissing path)
  | pathMistyped (path : Path) (expected found : Kind) :
      IsOfRules (.pathMistyped path expected found)
  | unaccounted (path : Path) : IsOfRules (.unaccounted path)

def isMissing : Notice → Bool
  | missing _ _ | missingForNumbers _ => true
  | _ => false

theorem IsOfRules.isMissing {n : Notice} (h : n.IsOfRules) : n.isMissing = false := by
  cases h <;> rfl

end Notice

namespace Action

def Reports (a : Action) : Prop := ∀ (f : Frame) (s : State), ∀ n ∈ (a f s).notices, n.IsOfRules

variable {a b : Action}

theorem skip_reports : skip.Reports := fun _ _ _ h => by cases h

theorem fail_reports (e : ConversionError) : (fail e).Reports := fun _ _ _ h => by cases h

theorem update_reports (change : State → State) : (update change).Reports :=
  fun _ _ _ h => by cases h

theorem notify_reports {n : Notice} (h : n.IsOfRules) : (notify n).Reports := fun _ _ _ hn =>
  List.mem_singleton.1 hn ▸ h

theorem Reports.andThen (ha : a.Reports) (hb : b.Reports) : (a.andThen b).Reports := by
  intro f s n hn
  cases h : (a f s).failure with
  | some e =>
    rw [andThen_state_of_failure h] at hn
    exact ha f s n hn
  | none =>
    simp only [Action.andThen, Outcome.andThen, h] at hn
    rcases List.mem_append.1 hn with hmem | hmem
    · exact ha f s n hmem
    · exact hb f _ n hmem

theorem sequence_reports {as : List Action} (h : ∀ a ∈ as, a.Reports) : (sequence as).Reports := by
  induction as with
  | nil => exact skip_reports
  | cons a rest ih =>
    exact Reports.andThen (h a (by simp)) (ih fun b hb => h b (List.mem_cons_of_mem _ hb))

theorem beyondRecord_reports (h : a.Reports) : (beyondRecord a).Reports :=
  (update_reports _).andThen h

theorem onBlock_reports {rule : String} {body : Block → Action} (h : ∀ b, (body b).Reports) :
    (onBlock rule body).Reports := by
  intro f s
  unfold onBlock
  split
  · exact h _ f s
  · exact fail_reports _ f s

theorem atCursor_reports {rule : String} {body : Cursor → Action} (h : ∀ c, (body c).Reports) :
    (atCursor rule body).Reports := by
  intro f s
  unfold atCursor
  split
  · exact h _ f s
  · exact update_reports _ f s
  · exact fail_reports _ f s

theorem carry_reports (c : Carry) : (carry c).Reports := by
  refine beyondRecord_reports (atCursor_reports fun cursor => ?_)
  split
  · exact update_reports _
  · exact fail_reports _

theorem collect_reports {body : List ScriptValue → Action} (h : ∀ vs, (body vs).Reports)
    (inputs : List ScriptInput) : (collect body inputs).Reports := by
  induction inputs generalizing body with
  | nil => exact h []
  | cons i rest ih =>
    intro f s
    simp only [collect]
    split
    · exact ih (fun vs => h (_ :: vs)) f _
    · exact fail_reports _ f _

theorem use_reports (script : String) (slot : ScriptOutput) (value : ScriptValue) :
    (use script slot value).Reports := by
  unfold use
  split
  · exact update_reports _
  · split
    · exact update_reports _
    · exact fail_reports _
  · exact update_reports _
  · exact update_reports _
  · exact fail_reports _

theorem useAll_reports (c : ScriptCall) (returned : Except ScriptError (List ScriptValue)) :
    (useAll c returned).Reports := by
  unfold useAll
  split
  · refine sequence_reports fun a ha => ?_
    rw [← List.map_uncurry_zip_eq_zipWith] at ha
    obtain ⟨⟨slot, value⟩, -, rfl⟩ := List.mem_map.1 ha
    exact use_reports c.script slot value
  · exact fail_reports _

end Action

namespace Rule

open BlockConvert.Action

variable {r : Resources}

theorem onNeighbour_reports {lookup : Lookup} {offset : Coords} {a : Action} (h : a.Reports) :
    (onNeighbour lookup offset a).Reports := by
  intro f s
  unfold onNeighbour
  dsimp only
  split
  · exact notify_reports (.partSkipped _ _) f s
  · split
    · exact notify_reports (.partSkipped _ _) f s
    · exact h _ s

theorem atPath_reports {path : Option Path} {a : Cursor → Action} (h : ∀ c, (a c).Reports) :
    (atPath path a).Reports := by
  intro f s
  unfold atPath
  split
  · exact update_reports _ f s
  · split
    · exact h _ _ s
    · split
      · exact notify_reports (.pathMissing _) f s
      · split
        · split
          · exact h _ _ s
          · exact notify_reports (.pathMistyped _ _ _) f s
        · exact h _ _ s

theorem visitChildren_reports {cursor : Cursor} {visit : PathKey → Cursor → Action}
    (h : ∀ key c, (visit key c).Reports) : (visitChildren cursor visit).Reports := by
  refine sequence_reports fun a ha => ?_
  obtain ⟨⟨key, child⟩, -, rfl⟩ := List.mem_map.1 ha
  exact fun f s => h key _ _ s

theorem carryUnaccounted_reports (cursor : Cursor) : (carryUnaccounted cursor).Reports :=
  (notify_reports (.unaccounted _)).andThen (carry_reports .same)

theorem carryMistyped_reports (cursor : Cursor) : (carryMistyped cursor).Reports := by
  unfold carryMistyped
  split
  · exact skip_reports
  · exact carry_reports .same

theorem runAll_reports_of {rules : List Rule} (h : ∀ rule ∈ rules, (run r rule).Reports) :
    (runAll r rules).Reports := by
  rw [runAll_eq_sequence]
  refine sequence_reports fun a ha => ?_
  obtain ⟨rule, hrule, rfl⟩ := List.mem_map.1 ha
  exact h rule hrule

theorem optional_runAll_reports {rules : Option (List Rule)} {otherwise : Action}
    (hother : otherwise.Reports)
    (h : ∀ rs, rules = some rs → ∀ rule ∈ rs, (run r rule).Reports) :
    ((rules.map (runAll r)).getD otherwise).Reports := by
  cases rules with
  | none => exact hother
  | some rs => exact runAll_reports_of (h rs rfl)

theorem get_runAll_reports {κ : Type} [DecidableEq κ] {cases : List (κ × List Rule)} {key : κ}
    {otherwise : Action} (hother : otherwise.Reports)
    (h : ∀ k rules, (k, rules) ∈ cases → ∀ rule ∈ rules, (run r rule).Reports) :
    (((Table.get? cases key).map (runAll r)).getD otherwise).Reports :=
  optional_runAll_reports hother fun rules hget =>
    h key rules (Table.mem_of_get?_eq_some hget)

theorem run_reports_hereditary (r : Resources) : Hereditary (fun rule => (run r rule).Reports)
    fun node => ∀ cursor, (walkNode r node cursor).Reports where
  newBlock _ := update_reports _
  newEntity _ := update_reports _
  newProperties _ := update_reports _
  carryProperties _ := onBlock_reports fun _ => update_reports _
  mapProperties cases inner := by
    refine onBlock_reports fun b => ?_
    rw [runPropertyCases_eq_sequence]
    refine sequence_reports fun a ha => ?_
    obtain ⟨⟨key, cs⟩, hcs, rfl⟩ := List.mem_map.1 ha
    refine runAll_reports_of fun rule hrule => ?_
    obtain ⟨t, rules, ht, hmem⟩ := casesOf_mem hrule
    exact inner key cs hcs t rules ht rule hmem
  mapBlockName cases inner := by
    refine onBlock_reports fun b => ?_
    rw [caseNamed_eq_get]
    exact get_runAll_reports skip_reports inner
  multiblock parts inner := by
    refine beyondRecord_reports ?_
    split
    · exact update_reports _
    · rw [runParts_eq_sequence]
      refine sequence_reports fun a ha => ?_
      obtain ⟨⟨offset, rules⟩, hpart, rfl⟩ := List.mem_map.1 ha
      exact onNeighbour_reports (runAll_reports_of (inner offset rules hpart))
  walk _ _ inner := beyondRecord_reports (atPath_reports inner)
  newTags _ _ _ _ h := by cases h
  carryTag c := carry_reports c
  mapTag cases otherwise inner rest := by
    refine beyondRecord_reports (atCursor_reports fun cursor => ?_)
    have hrest := runAll_reports_of rest
    rw [optionalCase_eq_get]
    cases cases with
    | none => exact hrest
    | some cs => exact get_runAll_reports hrest (inner cs rfl)
  script c := beyondRecord_reports (collect_reports (fun _ => useAll_reports c _) c.inputs)
  node kind rules keys indices childDefault selfDefault own atKeys atIndices child self := by
    intro cursor
    rw [walkNode_eq_visitChild]
    refine (runAll_reports_of own).andThen ?_
    split
    · refine visitChildren_reports fun key c => ?_
      unfold visitChild
      split
      · rename_i n hn
        rcases childNode_mem hn with ⟨k, hk⟩ | ⟨i, hi⟩
        · exact atKeys k n hk c
        · exact atIndices i n hi c
      · exact optional_runAll_reports (carryUnaccounted_reports c) child
    · exact optional_runAll_reports (carryMistyped_reports cursor) self

theorem runAll_reports (r : Resources) (rules : List Rule) : (runAll r rules).Reports :=
  runAll_reports_of fun rule _ => (run_reports_hereditary r).rule rule

end Rule

namespace Request

theorem dropped_isMissing {p : Paint.Painting} {n : Notice} (h : n ∈ dropped p) :
    n.isMissing = false := by
  obtain ⟨edit, -, rfl⟩ := List.mem_map.1 h
  rfl

theorem build_isMissing {q : Request} {s : State} {t : Conversion} {ns : List Notice}
    (h : q.build s = .ok (t, ns)) : ∀ n ∈ ns, n.isMissing = false := by
  unfold build at h
  split at h
  · contradiction
  · dsimp only at h
    split at h
    · contradiction
    · split at h
      · unfold buildBlock at h
        dsimp only at h
        split at h <;> cases h
        · exact fun n hn => dropped_isMissing hn
        · intro n hn
          split at hn
          · contradiction
          · rw [List.mem_singleton.1 hn]
            rfl
      · unfold buildEntity at h
        cases h
        exact fun n hn => dropped_isMissing hn

/-- However it ends, a conversion reports no missing entry. -/
theorem run_isMissing (q : Request) : ∀ n ∈ q.run.notices, n.isMissing = false := by
  have hrules : ∀ tree, ∀ n ∈ (q.decide tree).notices, n.isMissing = false := fun tree n hn =>
    (Rule.runAll_reports q.resources q.rules _ _ n hn).isMissing
  intro n hn
  unfold run at hn
  split at hn
  · contradiction
  · rename_i tree _
    dsimp only at hn
    split at hn
    · exact hrules tree n hn
    · split at hn
      · exact hrules tree n hn
      · rename_i hbuild
        rcases List.mem_append.1 hn with hmem | hmem
        · exact hrules tree n hmem
        · exact build_isMissing hbuild n hmem

end Request

end BlockConvert
