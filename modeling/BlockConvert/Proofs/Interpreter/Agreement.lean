import BlockConvert.Proofs.Interpreter.Growth

set_option autoImplicit false

/-!
# Two runs of the same rules

Two runs that look at the same record in different surroundings are compared. A state is called
intact while nothing has happened that could make them differ; it suffices to compare the rules that
look beyond the record. A result that depends on the record alone is the same in all surroundings.
-/

namespace BlockConvert

namespace Action

/-- Wherever the first action ends well in an intact state, the second does the same. -/
def Agrees (intact : State → Prop) (related : Frame → Frame → Prop) (a b : Action) : Prop :=
  ∀ f g s, related f g → (a f s).failure = none → intact (a f s).state → b g s = a f s

variable {intact : State → Prop} {related : Frame → Frame → Prop} {a b a' b' : Action}

theorem update_agrees (change : State → State) :
    Agrees intact related (update change) (update change) := fun _ _ _ _ _ _ => rfl

theorem Agrees.andThen (downward : ∀ s t : State, s.Grows t → intact t → intact s)
    (ha : Agrees intact related a a') (hb : Agrees intact related b b') (hgrow : b.Grows) :
    Agrees intact related (a.andThen b) (a'.andThen b') := by
  intro f g s hfg hok hintact
  cases h : (a f s).failure with
  | some e =>
    rw [andThen_state_of_failure h] at hintact
    simp [Action.andThen, Outcome.andThen, h] at hok
  | none =>
    rw [andThen_failure h] at hok
    rw [andThen_state h] at hintact
    have first : a' g s = a f s := ha f g s hfg h (downward _ _ (hgrow f _) hintact)
    have second : b' g (a f s).state = b f (a f s).state := hb f g _ hfg hok hintact
    simp [Action.andThen, Outcome.andThen, first, second]

theorem sequence_agrees {α : Type} (downward : ∀ s t : State, s.Grows t → intact t → intact s)
    {xs : List α} {act act' : α → Action}
    (h : ∀ x ∈ xs, Agrees intact related (act x) (act' x)) (hgrow : ∀ x ∈ xs, (act x).Grows) :
    Agrees intact related (sequence (xs.map act)) (sequence (xs.map act')) := by
  induction xs with
  | nil => exact fun _ _ _ _ _ _ => rfl
  | cons x rest ih =>
    apply Agrees.andThen downward (h x (by simp))
    · exact ih (fun y hy => h y (List.mem_cons_of_mem _ hy))
        fun y hy => hgrow y (List.mem_cons_of_mem _ hy)
    · apply sequence_grows
      intro c hc
      obtain ⟨y, hy, rfl⟩ := List.mem_map.1 hc
      exact hgrow y (List.mem_cons_of_mem _ hy)

theorem onBlock_agrees {rule : String} {body body' : Block → Action}
    (hrecord : ∀ f g, related f g → g.record = f.record)
    (h : ∀ b, Agrees intact related (body b) (body' b)) :
    Agrees intact related (onBlock rule body) (onBlock rule body') := by
  intro f g s hfg hok hintact
  cases hf : f.record with
  | entity e => simp [onBlock, hf, Outcome.fail] at hok
  | block b =>
    have hg : g.record = .block b := (hrecord f g hfg).trans hf
    simp only [onBlock, hf, hg] at hok hintact ⊢
    exact h b f g s hfg hok hintact

end Action

namespace Rule

open BlockConvert.Action

/-- What is asked of two runs with different resources for them to agree. -/
structure Comparison (r r' : Resources) (intact : State → Prop)
    (related : Frame → Frame → Prop) : Prop where
  downward : ∀ s t : State, s.Grows t → intact t → intact s
  record : ∀ f g, related f g → g.record = f.record
  cursor : ∀ f g, related f g → g.cursor = f.cursor
  beyond : ∀ rule : Rule, rule.looksBeyond = true →
    Agrees intact related (run r rule) (run r' rule)

variable {r r' : Resources} {intact : State → Prop} {related : Frame → Frame → Prop}

theorem runAll_agrees_of (h : Comparison r r' intact related) {rules : List Rule}
    (hrules : ∀ rule ∈ rules, Agrees intact related (run r rule) (run r' rule)) :
    Agrees intact related (runAll r rules) (runAll r' rules) := by
  rw [runAll_eq_sequence, runAll_eq_sequence]
  exact sequence_agrees h.downward hrules fun rule _ => run_grows r rule

theorem Comparison.hereditary (h : Comparison r r' intact related) :
    Hereditary (fun rule => Agrees intact related (run r rule) (run r' rule)) fun _ => True where
  newBlock _ := update_agrees _
  newEntity _ := update_agrees _
  newProperties _ := update_agrees _
  carryProperties _ := onBlock_agrees h.record fun _ => update_agrees _
  mapProperties cases inner := by
    apply onBlock_agrees h.record
    intro b
    rw [runPropertyCases_eq_sequence, runPropertyCases_eq_sequence]
    apply sequence_agrees h.downward
    · rintro ⟨key, cs⟩ hcs
      apply runAll_agrees_of h
      intro rule hrule
      obtain ⟨t, rules, ht, hmem⟩ := casesOf_mem hrule
      exact inner key cs hcs t rules ht rule hmem
    · exact fun e _ => runAll_grows r _
  mapBlockName cases inner := by
    apply onBlock_agrees h.record
    intro b
    rw [caseNamed_eq_get, caseNamed_eq_get]
    cases hget : Table.get? cases b.id.text with
    | none => exact fun _ _ _ _ _ _ => rfl
    | some rules =>
      exact runAll_agrees_of h (inner b.id.text rules (Table.mem_of_get?_eq_some hget))
  multiblock _ _ := h.beyond _ rfl
  walk _ _ _ := h.beyond _ rfl
  newTags entries := by
    intro f g s hfg _ _
    simp only [run, paint, h.cursor f g hfg]
  carryTag _ := h.beyond _ rfl
  mapTag _ _ _ _ := h.beyond _ rfl
  script _ := h.beyond _ rfl
  node _ _ _ _ _ _ _ _ _ _ _ := trivial

theorem Comparison.runAll (h : Comparison r r' intact related) (rules : List Rule) :
    Agrees intact related (Rule.runAll r rules) (Rule.runAll r' rules) :=
  runAll_agrees_of h fun rule _ => h.hereditary.rule rule

/-- The frames look at the same record, outside a walk; all else may differ. -/
def SameRecord (f g : Frame) : Prop :=
  g.record = f.record ∧ f.cursor = none ∧ g.cursor = none

/-- A state that depends on the record alone was reached without a rule that looks beyond it. -/
theorem comparison_of_cacheable (r r' : Resources) :
    Comparison r r' (fun s => s.cacheable = true) SameRecord where
  downward s t hgrow ht := by
    cases hs : s.cacheable with
    | true => rfl
    | false => exact absurd (hgrow.cacheable hs) (by simp [ht])
  record _ _ h := h.1
  cursor _ _ h := h.2.2.trans h.2.1.symm
  beyond rule hrule f _ s _ _ hcacheable :=
    absurd hcacheable (by simp [cacheable_of_looksBeyond hrule f s])

theorem runAll_of_cacheable {r r' : Resources} {rules : List Rule} {f g : Frame} {s : State}
    (hfg : SameRecord f g) (hok : (Rule.runAll r rules f s).failure = none)
    (hcacheable : (Rule.runAll r rules f s).state.cacheable = true) :
    Rule.runAll r' rules g s = Rule.runAll r rules f s :=
  (comparison_of_cacheable r r').runAll rules f g s hfg hok hcacheable

/-- A run outside a walk that ends well and whose result depends on the record alone ends well with
the same state for any scripts, any surroundings, any tree and any place. -/
theorem state_of_cacheable (r r' : Resources) (rules : List Rule) (f g : Frame) (s : State)
    (hrecord : g.record = f.record) (hf : f.cursor = none) (hg : g.cursor = none)
    (hok : (Rule.runAll r rules f s).failure = none)
    (hcacheable : (Rule.runAll r rules f s).state.cacheable = true) :
    (Rule.runAll r' rules g s).failure = none ∧
      (Rule.runAll r' rules g s).state = (Rule.runAll r rules f s).state := by
  rw [runAll_of_cacheable ⟨hrecord, hf, hg⟩ hok hcacheable]
  exact ⟨hok, rfl⟩

def birchLog : Block :=
  .new ⟨"minecraft", "log"⟩ (.ofList [("axis", .string "x"), ("variant", .string "birch")])

def logRules : List Rule :=
  [.newBlock "universal_minecraft:log",
    .carryProperties (.ofList [("axis", [.string "x", .string "y"])]),
    .mapProperties [("variant", [(.string "birch",
      [.newProperties (.ofList [("material", .string "birch")]),
        .newTags [⟨"", .compound, none, .key "bark", .byte 1⟩]])])]]

def besideTree : Frame := .start (.block birchLog) (some (.compound [("bark", .byte 0)])) ⟨1, 2, 3⟩

def amongLogs : Resources := ⟨.ofList [("echo", .ok)], some fun _ => .ok ⟨some birchLog, none⟩⟩

theorem state_of_cacheable_birchLog :
    (Rule.runAll ⟨∅, none⟩ logRules (.start (.block birchLog) none .origin) .fresh).failure = none ∧
    (Rule.runAll ⟨∅, none⟩ logRules (.start (.block birchLog) none .origin)
      .fresh).state.cacheable = true ∧
    (Rule.runAll amongLogs logRules besideTree .fresh).failure = none ∧
    (Rule.runAll amongLogs logRules besideTree .fresh).state =
      (Rule.runAll ⟨∅, none⟩ logRules (.start (.block birchLog) none .origin) .fresh).state :=
  ⟨by decide, by decide,
    state_of_cacheable ⟨∅, none⟩ amongLogs logRules (.start (.block birchLog) none .origin)
      besideTree .fresh rfl rfl rfl (by decide) (by decide)⟩

end Rule

end BlockConvert
