import BlockConvert.Proofs.Interpreter.Agreement
import BlockConvert.Proofs.Rule.Standing

set_option autoImplicit false

/-!
# Rules that keep to the record

The rules fall into two classes. Those that look at the record only change the state in a way that
the block and the position of a walk decide: they do not fail, they do not look at resources, trees
or places, and they leave it open whether the result depends on more than the record. A rule of the
other class settles that it does, whatever it finds.
-/

namespace BlockConvert

namespace Action

/-- On the block, at the position, the action is a change of the state that leaves both flags as
they are. Nothing else in the frame has a part in it, and the resources have none. -/
def ChangesOnly (b : Block) (position : Option Path) (a : Resources → Action) : Prop :=
  ∃ change : State → State,
    (∀ s, (change s).cacheable = s.cacheable ∧ (change s).extraNeeded = s.extraNeeded) ∧
    ∀ r f s, f.record = .block b → f.cursor.map Cursor.path = position →
      a r f s = .done (change s)

variable {b : Block} {position : Option Path} {a a' : Resources → Action}

theorem update_changesOnly {change : State → State}
    (h : ∀ s, (change s).cacheable = s.cacheable ∧ (change s).extraNeeded = s.extraNeeded) :
    ChangesOnly b position fun _ => update change :=
  ⟨change, h, fun _ _ _ _ _ => rfl⟩

theorem skip_changesOnly : ChangesOnly b position fun _ => skip :=
  update_changesOnly fun _ => ⟨rfl, rfl⟩

theorem withProperties_changesOnly (entries : List (String × Tag)) :
    ChangesOnly b position fun _ => update (·.withProperties entries) :=
  update_changesOnly fun _ => ⟨rfl, rfl⟩

theorem paint_changesOnly (entries : List NewTag) :
    ChangesOnly b position fun _ => paint entries := by
  refine ⟨fun s => s.withEdits (entries.map fun n =>
    ⟨n.rootName, n.rootKind, (n.path <|> position).getD [], n.key, n.value⟩),
    fun _ => ⟨rfl, rfl⟩, fun _ f s _ hposition => ?_⟩
  subst hposition
  rfl

theorem ChangesOnly.andThen (ha : ChangesOnly b position a) (ha' : ChangesOnly b position a') :
    ChangesOnly b position fun r => (a r).andThen (a' r) := by
  obtain ⟨change, hflags, hrun⟩ := ha
  obtain ⟨change', hflags', hrun'⟩ := ha'
  refine ⟨change' ∘ change, fun s => ?_, fun r f s hrecord hposition => ?_⟩
  · exact ⟨(hflags' _).1.trans (hflags s).1, (hflags' _).2.trans (hflags s).2⟩
  · show (a r f s).andThen (a' r f) = .done (change' (change s))
    rw [hrun r f s hrecord hposition, Outcome.done_andThen]
    exact hrun' r f (change s) hrecord hposition

theorem sequence_changesOnly {α : Type} {xs : List α} (act : α → Resources → Action)
    (h : ∀ x ∈ xs, ChangesOnly b position (act x)) :
    ChangesOnly b position fun r => sequence (xs.map (act · r)) := by
  induction xs with
  | nil => exact skip_changesOnly
  | cons x rest ih =>
    exact (h x (by simp)).andThen (ih fun y hy => h y (List.mem_cons_of_mem _ hy))

theorem onBlock_changesOnly {rule : String} (body : Resources → Block → Action)
    (h : ChangesOnly b position (body · b)) :
    ChangesOnly b position fun r => onBlock rule (body r) := by
  obtain ⟨change, hflags, hrun⟩ := h
  refine ⟨change, hflags, fun r f s hrecord hposition => ?_⟩
  simp only [onBlock, hrecord]
  exact hrun r f s hrecord hposition

end Action

namespace Rule

open BlockConvert.Action

variable {rules : List Rule} {rule : Rule} {b : Block} {position : Option Path} {r : Resources}

/-- No rule of the list, at any depth, looks at more than the record. -/
def KeepsToRecord (rules : List Rule) : Prop :=
  Throughout (fun _ rule => rule.looksBeyond = false) rules

theorem not_keepsToRecord (hbeyond : rule.looksBeyond = true) : ¬KeepsToRecord [rule] := by
  intro h
  have hnot : rule.looksBeyond = false := h.here (by simp)
  simp [hbeyond] at hnot

theorem runAll_changesOnly_of
    (h : ∀ rule ∈ rules, ChangesOnly b position fun r => run r rule) :
    ChangesOnly b position fun r => runAll r rules := by
  simp only [runAll_eq_sequence]
  exact sequence_changesOnly (fun rule r => run r rule) h

/-- The rules inside a rule are on the same block and at the same position, as long as no rule leads
away from them. -/
theorem changesOnly_hereditary (b : Block) (position : Option Path) :
    Hereditary (fun rule => KeepsToRecord [rule] → ChangesOnly b position fun r => run r rule)
      fun _ => True where
  newBlock _ _ := update_changesOnly fun _ => ⟨rfl, rfl⟩
  newEntity _ _ := update_changesOnly fun _ => ⟨rfl, rfl⟩
  newProperties _ _ := withProperties_changesOnly _
  carryProperties _ _ := onBlock_changesOnly _ (withProperties_changesOnly _)
  newTags entries _ := paint_changesOnly entries
  mapProperties cases inner h := by
    refine onBlock_changesOnly (fun r => runPropertyCases r cases) ?_
    simp only [runPropertyCases_eq_sequence]
    refine sequence_changesOnly
      (fun (e : String × List (Tag × List Rule)) r => runAll r (casesOf b e.1 e.2)) ?_
    rintro ⟨key, cs⟩ hcs
    refine runAll_changesOnly_of fun rule hrule => ?_
    obtain ⟨t, rules, ht, hmem⟩ := casesOf_mem hrule
    have hrules : KeepsToRecord rules := h.inside (by simp) (.propertyCase hcs ht)
    exact inner key cs hcs t rules ht rule hmem (hrules.single hmem)
  mapBlockName cases inner h := by
    refine onBlock_changesOnly (fun r b => (caseNamed r cases b.id.text).getD skip) ?_
    simp only [caseNamed_eq_get]
    cases hget : Table.get? cases b.id.text with
    | none => exact skip_changesOnly
    | some rules =>
      have hmem := Table.mem_of_get?_eq_some hget
      have hrules : KeepsToRecord rules := h.inside (by simp) (.nameCase hmem)
      exact runAll_changesOnly_of fun rule hrule =>
        inner _ rules hmem rule hrule (hrules.single hrule)
  multiblock _ _ h := absurd h (not_keepsToRecord rfl)
  walk _ _ _ h := absurd h (not_keepsToRecord rfl)
  carryTag _ h := absurd h (not_keepsToRecord rfl)
  mapTag _ _ _ _ h := absurd h (not_keepsToRecord rfl)
  script _ h := absurd h (not_keepsToRecord rfl)
  node _ _ _ _ _ _ _ _ _ _ _ := trivial

theorem runAll_changesOnly (h : KeepsToRecord rules) (b : Block) (position : Option Path) :
    ChangesOnly b position fun r => runAll r rules :=
  runAll_changesOnly_of fun rule hrule =>
    (changesOnly_hereditary b position).rule rule (h.single hrule)

/-- The rules after the one that looks beyond the record take nothing back. -/
theorem cacheable_of_mem (hrule : rule ∈ rules) (hbeyond : rule.looksBeyond = true) (f : Frame)
    (s : State) (hok : (runAll r rules f s).failure = none) :
    (runAll r rules f s).state.cacheable = false := by
  induction rules generalizing s with
  | nil => contradiction
  | cons first rest ih =>
    rw [runAll] at hok ⊢
    cases hfirst : (run r first f s).failure with
    | some e => simp [andThen_state_of_failure hfirst, hfirst] at hok
    | none =>
      rw [andThen_failure hfirst] at hok
      rw [andThen_state hfirst]
      rcases List.mem_cons.1 hrule with rfl | hmem
      · exact (runAll_grows r rest f _).cacheable (cacheable_of_looksBeyond hbeyond f s)
      · exact ih hmem _ hok

/-- On a block, rules that keep to the record run to the end, leave both flags as they were, and
give the same outcome with any scripts, any blocks around, any tree and at any place. A list with a
rule at the top that looks beyond the record leaves a result that depends on more than the record,
whatever the rule finds. -/
theorem flags_follow_rules :
    (∀ rules, KeepsToRecord rules → ∀ r f s b, f.record = .block b →
      (runAll r rules f s).failure = none ∧
      (runAll r rules f s).state.cacheable = s.cacheable ∧
      (runAll r rules f s).state.extraNeeded = s.extraNeeded ∧
      ∀ r' g, g.record = f.record → g.cursor.map Cursor.path = f.cursor.map Cursor.path →
        runAll r' rules g s = runAll r rules f s) ∧
    ∀ rules, (∃ rule ∈ rules, rule.looksBeyond = true) → ∀ r f s,
      (runAll r rules f s).failure = none → (runAll r rules f s).state.cacheable = false := by
  refine ⟨fun rules h r f s b hrecord => ?_, fun rules ⟨rule, hrule, hbeyond⟩ r f s hok => ?_⟩
  · obtain ⟨change, hflags, hrun⟩ := runAll_changesOnly h b (f.cursor.map Cursor.path)
    have hf : runAll r rules f s = .done (change s) := hrun r f s hrecord rfl
    rw [hf]
    refine ⟨rfl, (hflags s).1, (hflags s).2, fun r' g hg hposition => ?_⟩
    exact hrun r' g s (hg.trans hrecord) hposition
  · exact cacheable_of_mem hrule hbeyond f s hok

theorem logRules_keepToRecord : KeepsToRecord logRules := by
  refine throughout_cons rfl nofun (throughout_cons rfl nofun
    (throughout_cons rfl (fun e inner h => ?_) throughout_nil))
  cases h with
  | propertyCase hcases h =>
    cases List.mem_singleton.1 hcases
    cases List.mem_singleton.1 h
    exact throughout_cons rfl nofun (throughout_cons rfl nofun throughout_nil)

/-- The second list has a structure without parts, which no lookup is asked for. -/
theorem flags_follow_rules_log :
    KeepsToRecord logRules ∧ besideTree.record = .block birchLog ∧
    (runAll amongLogs logRules besideTree .fresh).failure = none ∧
    (runAll amongLogs logRules besideTree .fresh).state.cacheable = true ∧
    (runAll amongLogs logRules besideTree .fresh).state.extraNeeded = false ∧
    runAll ⟨∅, none⟩ logRules (.start (.block birchLog) none .origin) .fresh =
      runAll amongLogs logRules besideTree .fresh ∧
    (∃ rule ∈ logRules ++ [.multiblock []], rule.looksBeyond = true) ∧
    (runAll amongLogs (logRules ++ [.multiblock []]) besideTree .fresh).failure = none ∧
    (runAll amongLogs (logRules ++ [.multiblock []]) besideTree .fresh).state.cacheable =
      false := by
  have hbeyond : ∃ rule ∈ logRules ++ [.multiblock []], rule.looksBeyond = true :=
    ⟨.multiblock [], by simp, rfl⟩
  obtain ⟨hkeep, hlook⟩ := flags_follow_rules
  obtain ⟨hok, hcacheable, hneeded, hsame⟩ :=
    hkeep logRules logRules_keepToRecord amongLogs besideTree .fresh birchLog rfl
  exact ⟨logRules_keepToRecord, rfl, hok, hcacheable, hneeded, hsame ⟨∅, none⟩ _ rfl rfl, hbeyond,
    by decide, hlook _ hbeyond amongLogs besideTree .fresh (by decide)⟩

end Rule

end BlockConvert
