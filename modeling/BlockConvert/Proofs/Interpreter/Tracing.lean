import BlockConvert.Proofs.Interpreter.Reach

set_option autoImplicit false

/-!
# A run is the trace of its steps

The frames in which rules run, and which rules these are, do not depend on the state that the rules
have made so far. So for a rule list and a frame there is one list of steps, those that a run
reaches, and a run from any state takes them in this order until one fails. Notices apart, it does
nothing else.
-/

namespace BlockConvert

namespace Outcome

def effect (o : Outcome) : State × Option ConversionError := (o.state, o.failure)

theorem effect_andThen {o p : Outcome} {f g : State → Outcome} (h : o.effect = p.effect)
    (hnext : ∀ s, (f s).effect = (g s).effect) : (o.andThen f).effect = (p.andThen g).effect := by
  obtain ⟨s, notices, failure⟩ := o
  obtain ⟨t, others, failure'⟩ := p
  cases h
  cases failure with
  | some e => rfl
  | none => exact hnext s

end Outcome

namespace Rule

open BlockConvert.Action

/-- What a rule does itself, apart from the rules inside it. -/
def own (r : Resources) : Rule → Action
  | .mapProperties _ => onBlock "map_properties" fun _ => skip
  | .mapBlockName _ => onBlock "map_block_name" fun _ => skip
  | .multiblock _ => beyondRecord (if r.lookup.isSome then skip else needExtra)
  | .walk _ _ => beyondRecord fun f => if f.tree.isSome then skip f else needExtra f
  | .mapTag _ _ => beyondRecord (atCursor "map_nbt" fun _ => skip)
  | rule => run r rule

structure Step where
  enclosing : List Enclosure
  frame : Frame
  rule : Rule

namespace Step

def within (e : List Enclosure) (t : Step) : Step := { t with enclosing := t.enclosing ++ e }

theorem within_nil (t : Step) : t.within [] = t := by simp [within]

end Step

def play (r : Resources) : List Step → State → Outcome
  | [], s => .done s
  | t :: rest, s => (own r t.rule t.frame s).andThen (play r rest)

theorem play_append (r : Resources) (xs ys : List Step) (s : State) :
    play r (xs ++ ys) s = (play r xs s).andThen (play r ys) := by
  induction xs generalizing s with
  | nil => exact (Outcome.done_andThen s _).symm
  | cons t rest ih =>
    rw [List.cons_append, play, play, Outcome.andThen_assoc]
    exact congrArg _ (funext ih)

theorem play_within (r : Resources) (e : List Enclosure) (steps : List Step) :
    play r (steps.map (Step.within e)) = play r steps := by
  funext s
  induction steps generalizing s with
  | nil => rfl
  | cons t rest ih => exact congrArg _ (funext ih)

/-- In the frame the action does to every state what certain steps do, and these are the steps with
the property. -/
def Traces (r : Resources) (P : Step → Prop) (a : Action) (f : Frame) : Prop :=
  ∃ steps : List Step, (∀ t, t ∈ steps ↔ P t) ∧ ∀ s, (a f s).effect = (play r steps s).effect

variable {r : Resources} {P Q : Step → Prop} {a b : Action} {f g : Frame}

theorem Traces.congr (h : Traces r P a f) (hPQ : ∀ t, P t ↔ Q t) : Traces r Q a f := by
  obtain ⟨steps, hmem, heffect⟩ := h
  exact ⟨steps, fun t => (hmem t).trans (hPQ t), heffect⟩

theorem Traces.of_effect (h : Traces r P a f) (hab : ∀ s, (b g s).effect = (a f s).effect) :
    Traces r P b g := by
  obtain ⟨steps, hmem, heffect⟩ := h
  exact ⟨steps, hmem, fun s => (hab s).trans (heffect s)⟩

theorem traces_idle (h : ∀ s, (a f s).effect = (s, none)) (hP : ∀ t, ¬P t) : Traces r P a f :=
  ⟨[], fun t => by simpa using hP t, h⟩

theorem Traces.andThen (ha : Traces r P a f) (hb : Traces r Q b f) :
    Traces r (fun t => P t ∨ Q t) (a.andThen b) f := by
  obtain ⟨xs, hxs, hplay⟩ := ha
  obtain ⟨ys, hys, hplay'⟩ := hb
  refine ⟨xs ++ ys, fun t => by rw [List.mem_append, hxs, hys], fun s => ?_⟩
  rw [play_append]
  exact Outcome.effect_andThen (hplay s) hplay'

theorem sequence_traces {α : Type} {xs : List α} {act : α → Action} {Q : α → Step → Prop}
    (h : ∀ x ∈ xs, Traces r (Q x) (act x) f) :
    Traces r (fun t => ∃ x ∈ xs, Q x t) (sequence (xs.map act)) f := by
  induction xs with
  | nil => exact traces_idle (fun _ => rfl) (by simp)
  | cons x rest ih =>
    have hrest := ih fun y hy => h y (List.mem_cons_of_mem _ hy)
    exact ((h x (by simp)).andThen hrest).congr fun t => by simp

theorem Traces.within (h : Traces r P a f) (e : List Enclosure) :
    Traces r (fun t => ∃ u, P u ∧ u.within e = t) a f := by
  obtain ⟨steps, hmem, heffect⟩ := h
  refine ⟨steps.map (Step.within e), fun t => ?_, fun s => ?_⟩
  · simp only [List.mem_map, hmem]
  · rw [play_within]
    exact heffect s

/-! ## The steps of a rule -/

def ReachedBy (r : Resources) (rules : List Rule) (f : Frame) (t : Step) : Prop :=
  Reaches r rules f t.enclosing t.frame t.rule

def EntersTo (r : Resources) (rule : Rule) (f : Frame) (t : Step) : Prop :=
  ∃ e inner g, Enters r rule f e inner g ∧ ∃ u, ReachedBy r inner g u ∧ u.within e = t

theorem reachedBy_iff {rules : List Rule} {t : Step} : ReachedBy r rules f t ↔
    ∃ rule ∈ rules, ⟨[], f, rule⟩ = t ∨ EntersTo r rule f t := by
  obtain ⟨enclosing, g, step⟩ := t
  constructor
  · intro h
    cases h with
    | here h => exact ⟨step, h, .inl rfl⟩
    | @inside _ inner _ g' _ outer _ enclosed e houter hinner hreach =>
      exact ⟨outer, houter, .inr ⟨e, inner, g', hinner, ⟨enclosed, g, step⟩, hreach, rfl⟩⟩
  · rintro ⟨rule, hrule, heq | ⟨e, inner, g', hinner, u, hreach, heq⟩⟩
    · cases heq
      exact .here hrule
    · cases heq
      exact .inside hrule hinner hreach

theorem not_reachedBy_nil (t : Step) : ¬ReachedBy r [] f t := not_reaches_nil

/-- A rule takes its own step and then those in the rule lists that it runs. -/
theorem traces_rule {rule : Rule}
    (hrun : ∀ s, (run r rule f s).effect = ((own r rule f s).andThen (a f)).effect)
    (h : Traces r (EntersTo r rule f) a f) : Traces r (ReachedBy r [rule] f) (run r rule) f := by
  have hown : Traces r (fun t => ⟨[], f, rule⟩ = t) (own r rule) f :=
    ⟨[⟨[], f, rule⟩], fun t => by simp [eq_comm], fun s => by simp [play]⟩
  refine ((hown.andThen h).of_effect hrun).congr fun t => ?_
  simp [reachedBy_iff]

theorem traces_own {rule : Rule} (hrun : ∀ s, (run r rule f s).effect = (own r rule f s).effect)
    (h : ∀ e inner g, ¬Enters r rule f e inner g) :
    Traces r (ReachedBy r [rule] f) (run r rule) f := by
  have hnone : Traces r (EntersTo r rule f) skip f :=
    traces_idle (fun _ => rfl) fun t ⟨e, inner, g, henters, _⟩ => h e inner g henters
  refine traces_rule (fun s => ?_) hnone
  rw [hrun]
  exact congrArg Outcome.effect (Outcome.andThen_done _).symm

theorem runAll_traces_of {rules : List Rule}
    (h : ∀ rule ∈ rules, Traces r (ReachedBy r [rule] f) (run r rule) f) :
    Traces r (ReachedBy r rules f) (runAll r rules) f := by
  rw [runAll_eq_sequence]
  refine (sequence_traces h).congr fun t => ?_
  simp only [reachedBy_iff, List.mem_singleton, exists_eq_left]

theorem entersTo_here {rule : Rule} {inner : List Rule}
    (h : ∀ e rs g, Enters r rule f e rs g ↔ e = [] ∧ rs = inner ∧ g = f) (t : Step) :
    ReachedBy r inner f t ↔ EntersTo r rule f t := by
  simp only [EntersTo, h]
  constructor
  · exact fun ht => ⟨[], inner, f, ⟨rfl, rfl, rfl⟩, t, ht, t.within_nil⟩
  · rintro ⟨_, _, _, ⟨rfl, rfl, rfl⟩, u, hu, rfl⟩
    rwa [Step.within_nil]

theorem mapProperties_traces {cases : List (String × List (Tag × List Rule))}
    (inner : ∀ key cs, (key, cs) ∈ cases → ∀ t rules, (t, rules) ∈ cs →
      Traces r (ReachedBy r rules f) (runAll r rules) f) :
    Traces r (ReachedBy r [.mapProperties cases] f) (run r (.mapProperties cases)) f := by
  cases hrecord : f.record with
  | entity e =>
    refine traces_own (fun s => by simp [run, own, onBlock, hrecord]) fun e inner g henters => ?_
    cases henters
    simp_all
  | block b =>
    have hcase : ∀ c ∈ cases, Traces r (ReachedBy r (casesOf b c.1 c.2) f)
        (runAll r (casesOf b c.1 c.2)) f := by
      rintro ⟨key, cs⟩ hcs
      unfold casesOf
      cases hrules : (b.properties.get? key).bind (Table.get? cs) with
      | none => exact traces_idle (fun _ => rfl) not_reachedBy_nil
      | some rules =>
        obtain ⟨v, -, hget⟩ := Option.bind_eq_some_iff.1 hrules
        exact inner key cs hcs v rules (Table.mem_of_get?_eq_some hget)
    refine traces_rule (a := sequence (cases.map fun c => runAll r (casesOf b c.1 c.2)))
      (fun s => ?_) ((sequence_traces hcase).congr fun t => ?_)
    · simp [run, own, onBlock, hrecord, runPropertyCases_eq_sequence, skip]
    · constructor
      · rintro ⟨⟨key, cs⟩, hcs, ht⟩
        unfold casesOf at ht
        cases hrules : (b.properties.get? key).bind (Table.get? cs) with
        | none => exact absurd (by simpa [hrules] using ht) (not_reachedBy_nil t)
        | some rules =>
          obtain ⟨v, hvalue, hget⟩ := Option.bind_eq_some_iff.1 hrules
          rw [hrules] at ht
          exact ⟨[], rules, f, .propertyCase hrecord hcs hvalue hget, t, ht, t.within_nil⟩
      · rintro ⟨_, _, _, henters, u, hu, rfl⟩
        cases henters with
        | @propertyCase _ _ b' key cs v rules hrecord' hcs hvalue hget =>
          obtain rfl : b = b' := Record.block.inj (hrecord.symm.trans hrecord')
          refine ⟨(key, cs), hcs, ?_⟩
          simpa [casesOf, hvalue, hget, Step.within_nil] using hu

theorem mapBlockName_traces {cases : List (String × List Rule)}
    (inner : ∀ name rules, (name, rules) ∈ cases →
      Traces r (ReachedBy r rules f) (runAll r rules) f) :
    Traces r (ReachedBy r [.mapBlockName cases] f) (run r (.mapBlockName cases)) f := by
  cases hrecord : f.record with
  | entity e =>
    refine traces_own (fun s => by simp [run, own, onBlock, hrecord]) fun e inner g henters => ?_
    cases henters
    simp_all
  | block b =>
    cases hget : Table.get? cases b.id.text with
    | none =>
      refine traces_own (fun s => ?_) fun e inner g henters => ?_
      · simp [run, own, onBlock, hrecord, caseNamed_eq_get, hget]
      · cases henters
        simp_all
    | some rules =>
      have hrules := inner b.id.text rules (Table.mem_of_get?_eq_some hget)
      refine traces_rule (fun s => ?_) (hrules.congr (entersTo_here fun e rs g => ?_))
      · simp [run, own, onBlock, hrecord, caseNamed_eq_get, hget, skip]
      · constructor
        · intro henters
          cases henters
          simp_all
        · rintro ⟨rfl, rfl, rfl⟩
          exact .nameCase hrecord hget

theorem mapTag_traces {cases : Option (List (Tag × List Rule))} {otherwise : List Rule}
    (inner : ∀ cs, cases = some cs → ∀ t rules, (t, rules) ∈ cs →
      Traces r (ReachedBy r rules f) (runAll r rules) f)
    (rest : Traces r (ReachedBy r otherwise f) (runAll r otherwise) f) :
    Traces r (ReachedBy r [.mapTag cases otherwise] f) (run r (.mapTag cases otherwise)) f := by
  cases hcursor : f.cursor with
  | none =>
    refine traces_own (fun s => ?_) fun e inner g henters => ?_
    · cases htree : f.tree <;> simp [run, own, beyondRecord_apply, atCursor, hcursor, htree]
    · cases henters <;> simp_all
  | some c =>
    cases hget : cases.bind fun cs => Table.get? cs c.value with
    | none =>
      refine traces_rule (fun s => ?_) (rest.congr (entersTo_here fun e rs g => ?_))
      · cases cases <;>
          simp_all [run, own, beyondRecord_apply, atCursor, optionalCase_eq_get, skip]
      · constructor
        · intro henters
          cases henters <;> simp_all
        · rintro ⟨rfl, rfl, rfl⟩
          exact .otherwise hcursor hget
    | some rules =>
      obtain ⟨cs, rfl, hrules⟩ := Option.bind_eq_some_iff.1 hget
      have hcase := inner cs rfl c.value rules (Table.mem_of_get?_eq_some hrules)
      refine traces_rule (fun s => ?_) (hcase.congr (entersTo_here fun e rs g => ?_))
      · simp [run, own, beyondRecord_apply, atCursor, hcursor, optionalCase_eq_get, hrules, skip]
      · constructor
        · intro henters
          cases henters <;> simp_all
        · rintro ⟨rfl, rfl, rfl⟩
          exact .tagCase hcursor hrules

/-! ## Parts -/

def PartTo (r : Resources) (lookup : Lookup) (f : Frame) (p : Part) (t : Step) : Prop :=
  ∃ found b, lookup (f.relative + p.offset) = .ok found ∧ found.block = some b ∧
    ∃ u, ReachedBy r p.rules
      (f.neighbour p.offset b (found.blockEntity.map fun e => e.tree.tag)) u ∧
      u.within [.part p.offset] = t

theorem onNeighbour_traces {lookup : Lookup} {p : Part}
    (h : ∀ g, Traces r (ReachedBy r p.rules g) (runAll r p.rules) g) :
    Traces r (PartTo r lookup f p) (onNeighbour lookup p.offset (runAll r p.rules)) f := by
  cases hfound : lookup (f.relative + p.offset) with
  | error e =>
    refine traces_idle (fun s => by simp [onNeighbour, hfound, notify, Outcome.effect]) fun t => ?_
    simp [PartTo, hfound]
  | ok found =>
    cases hblock : found.block with
    | none =>
      refine traces_idle (fun s => ?_) fun t => ?_
      · simp [onNeighbour, hfound, hblock, notify, Outcome.effect]
      · simp [PartTo, hfound, hblock]
    | some b =>
      refine (((h (f.neighbour p.offset b (found.blockEntity.map fun e => e.tree.tag))).within
        [.part p.offset]).of_effect fun s => ?_).congr fun t => ?_
      · simp [onNeighbour, hfound, hblock]
      · simp [PartTo, hfound, hblock]

theorem multiblock_traces {parts : List Part}
    (inner : ∀ offset rules, .mk offset rules ∈ parts → ∀ g,
      Traces r (ReachedBy r rules g) (runAll r rules) g) :
    Traces r (ReachedBy r [.multiblock parts] f) (run r (.multiblock parts)) f := by
  cases hlookup : r.lookup with
  | none =>
    refine traces_own (fun s => by simp [run, own, hlookup]) fun e inner g henters => ?_
    cases henters
    simp_all
  | some lookup =>
    have hparts : ∀ p ∈ parts, Traces r (PartTo r lookup f p)
        (onNeighbour lookup p.offset (runAll r p.rules)) f := by
      rintro ⟨offset, rules⟩ hpart
      exact onNeighbour_traces (inner offset rules hpart)
    refine traces_rule (a := runParts r lookup parts) (fun s => ?_) ?_
    · simp [run, own, hlookup, beyondRecord_apply, skip]
    · rw [runParts_eq_sequence]
      refine (sequence_traces hparts).congr fun t => ⟨?_, ?_⟩
      · rintro ⟨⟨offset, rules⟩, hpart, found, b, hfound, hblock, u, hu, rfl⟩
        exact ⟨_, _, _, .part hlookup hpart hfound hblock, u, hu, rfl⟩
      · rintro ⟨_, _, _, henters, u, hu, rfl⟩
        cases henters with
        | part hlookup' hpart hfound hblock =>
          obtain rfl := Option.some.inj (hlookup.symm.trans hlookup')
          exact ⟨_, hpart, _, _, hfound, hblock, u, hu, rfl⟩

/-! ## Walks -/

def WalksTo (r : Resources) (node : WalkNode) (f : Frame) (c : Cursor) (t : Step) : Prop :=
  ∃ rules d, Walks node c rules d ∧ ReachedBy r rules (f.positioned d) t

theorem atPath_cases (path : Option Path) (f : Frame) :
    (∃ c, (∀ d, Starts path f d ↔ d = c) ∧ f.tree.isSome = true ∧
      ∀ a, atPath path a f = a c (f.positioned c)) ∨
    (∀ d, ¬Starts path f d) ∧ ∀ a s,
      (atPath path a f s).effect = (if f.tree.isSome then .done s else needExtra f s).effect := by
  cases htree : f.tree with
  | none =>
    refine .inr ⟨fun d hstart => ?_, fun a s => by simp [atPath, htree]⟩
    cases hstart <;> simp_all
  | some tree =>
    cases path with
    | none =>
      refine .inl ⟨f.cursor.getD ⟨[], tree⟩, fun d => ⟨fun hstart => ?_, ?_⟩, rfl, fun a => ?_⟩
      · cases hstart
        simp_all
      · rintro rfl
        exact .current htree
      · funext s
        simp [atPath, htree]
    | some p =>
      cases hvalue : tree.follow? p with
      | none =>
        refine .inr ⟨fun d hstart => ?_, fun a s => ?_⟩
        · cases hstart
          simp_all
        · simp [atPath, htree, hvalue, notify, Outcome.effect, Outcome.done]
      | some value =>
        by_cases hkind : ∀ last, p.getLast? = some last → value.kind = last.kind
        · refine .inl ⟨⟨p, value⟩, fun d => ⟨fun hstart => ?_, ?_⟩, rfl, fun a => ?_⟩
          · cases hstart
            simp_all
          · rintro rfl
            exact .along htree hvalue hkind
          · funext s
            cases hlast : p.getLast? with
            | none => simp [atPath, htree, hvalue, hlast]
            | some last => simp [atPath, htree, hvalue, hlast, hkind last hlast]
        · refine .inr ⟨fun d hstart => ?_, fun a s => ?_⟩
          · cases hstart with
            | along htree' hvalue' hkind' =>
              obtain rfl := Option.some.inj (htree.symm.trans htree')
              obtain rfl := Option.some.inj (hvalue.symm.trans hvalue')
              exact hkind hkind'
          · obtain ⟨last, hlast, hother⟩ := by simpa using hkind
            simp [atPath, htree, hvalue, hlast, hother, notify, Outcome.effect, Outcome.done]

theorem walk_traces {path : Option Path} {node : WalkNode}
    (inner : ∀ c, Traces r (WalksTo r node f c) (walkNode r node c) (f.positioned c)) :
    Traces r (ReachedBy r [.walk path node] f) (run r (.walk path node)) f := by
  rcases atPath_cases path f with ⟨c, hstarts, htree, hat⟩ | ⟨hnone, heffect⟩
  · have hsteps : Traces r (EntersTo r (.walk path node) f)
        (fun _ => walkNode r node c (f.positioned c)) f := by
      refine ((inner c).within [.walk]).congr fun t => ⟨?_, ?_⟩
      · rintro ⟨u, ⟨rules, d, hwalks, hu⟩, rfl⟩
        exact ⟨_, _, _, .node ((hstarts c).2 rfl) hwalks, u, hu, rfl⟩
      · rintro ⟨_, _, _, henters, u, hu, rfl⟩
        cases henters with
        | node hstart hwalks =>
          obtain rfl := (hstarts _).1 hstart
          exact ⟨u, ⟨_, _, hwalks, hu⟩, rfl⟩
    refine traces_rule (fun s => ?_) hsteps
    simp [run, own, beyondRecord_apply, hat, htree, skip]
  · refine traces_own (fun s => ?_) fun e inner g henters => ?_
    · simp only [run, own, beyondRecord_apply, heffect]
      cases f.tree <;> rfl
    · cases henters with
      | node hstart _ => exact hnone _ hstart

theorem carrySame_traces : Traces r (ReachedBy r carryOnly f) (carry .same) f :=
  traces_own (fun _ => rfl) fun _ _ _ henters => by cases henters

theorem carryUnaccounted_traces (c : Cursor) :
    Traces r (ReachedBy r carryOnly f) (carryUnaccounted c) f :=
  carrySame_traces.of_effect fun _ => rfl

theorem optional_traces {rules : Option (List Rule)} {otherwise : Action}
    (hsome : ∀ rs, rules = some rs → Traces r (ReachedBy r rs f) (runAll r rs) f)
    (hnone : rules = none → Traces r (ReachedBy r carryOnly f) otherwise f) :
    Traces r (ReachedBy r (rules.getD carryOnly) f) ((rules.map (runAll r)).getD otherwise) f := by
  cases rules with
  | none => exact hnone rfl
  | some rs => exact hsome rs rfl

def VisitsTo (r : Resources) (keys indices : List (String × WalkNode))
    (childDefault : Option (List Rule)) (f : Frame) (key : PathKey) (c : Cursor) (t : Step) :
    Prop :=
  match childNode keys indices key with
  | some n => WalksTo r n f c t
  | none => ReachedBy r (childDefault.getD carryOnly) (f.positioned c) t

variable {kind : Option Kind} {rules : List Rule} {keys indices : List (String × WalkNode)}
  {childDefault selfDefault : Option (List Rule)} {c : Cursor} {t : Step}

theorem walksTo_iff_of_kind (hkind : kind.all (· = c.value.kind) = true) :
    WalksTo r (.mk kind rules keys indices childDefault selfDefault) f c t ↔
      ReachedBy r rules (f.positioned c) t ∨ ∃ child ∈ c.value.children,
        VisitsTo r keys indices childDefault f child.1 (c.child child.1 child.2) t := by
  constructor
  · rintro ⟨rs, d, hwalks, ht⟩
    cases hwalks with
    | own => exact .inl ht
    | mistyped hother _ => simp [hkind] at hother
    | unaccounted _ hchild hnode => exact .inr ⟨_, hchild, by simpa [VisitsTo, hnode] using ht⟩
    | deeper _ hchild hnode hdeeper =>
      exact .inr ⟨_, hchild, by simpa [VisitsTo, hnode] using ⟨rs, d, hdeeper, ht⟩⟩
  · rintro (ht | ⟨⟨key, u⟩, hchild, ht⟩)
    · exact ⟨rules, c, .own, ht⟩
    · cases hnode : childNode keys indices key with
      | none =>
        simp only [VisitsTo, hnode] at ht
        exact ⟨_, _, .unaccounted hkind hchild hnode, ht⟩
      | some n =>
        simp only [VisitsTo, hnode] at ht
        obtain ⟨rs, d, hwalks, ht⟩ := ht
        exact ⟨rs, d, .deeper hkind hchild hnode hwalks, ht⟩

theorem walksTo_iff_of_mistyped (hkind : kind.all (· = c.value.kind) = false) :
    WalksTo r (.mk kind rules keys indices childDefault selfDefault) f c t ↔
      ReachedBy r rules (f.positioned c) t ∨ (selfDefault.isSome ∨ c.path ≠ []) ∧
        ReachedBy r (selfDefault.getD carryOnly) (f.positioned c) t := by
  constructor
  · rintro ⟨rs, d, hwalks, ht⟩
    cases hwalks with
    | own => exact .inl ht
    | mistyped _ h => exact .inr ⟨h, ht⟩
    | unaccounted hfits _ _ => simp [hkind] at hfits
    | deeper hfits _ _ _ => simp [hkind] at hfits
  · rintro (ht | ⟨h, ht⟩)
    · exact ⟨rules, c, .own, ht⟩
    · exact ⟨_, c, .mistyped hkind h, ht⟩

theorem mistyped_traces
    (self : ∀ rs, selfDefault = some rs → ∀ g, Traces r (ReachedBy r rs g) (runAll r rs) g) :
    Traces r (fun t => (selfDefault.isSome ∨ c.path ≠ []) ∧
      ReachedBy r (selfDefault.getD carryOnly) f t)
      ((selfDefault.map (runAll r)).getD (carryMistyped c)) f := by
  by_cases h : selfDefault.isSome ∨ c.path ≠ []
  · refine (optional_traces (fun rs hrs => self rs hrs f) fun hnone => ?_).congr
      fun t => by simp [h]
    have hpath : c.path ≠ [] := h.resolve_left (by simp [hnone])
    simpa [carryMistyped, hpath] using carrySame_traces
  · obtain ⟨hnone, hroot⟩ : selfDefault = none ∧ c.path = [] := by simpa using h
    refine traces_idle (fun s => ?_) fun t => by simp [h]
    simp [hnone, hroot, carryMistyped, skip, Outcome.done, Outcome.effect]

theorem node_traces (own : ∀ g, Traces r (ReachedBy r rules g) (runAll r rules) g)
    (below : ∀ key n, childNode keys indices key = some n → ∀ d,
      Traces r (WalksTo r n f d) (walkNode r n d) (f.positioned d))
    (child : ∀ rs, childDefault = some rs → ∀ g, Traces r (ReachedBy r rs g) (runAll r rs) g)
    (self : ∀ rs, selfDefault = some rs → ∀ g, Traces r (ReachedBy r rs g) (runAll r rs) g) :
    Traces r (WalksTo r (.mk kind rules keys indices childDefault selfDefault) f c)
      (walkNode r (.mk kind rules keys indices childDefault selfDefault) c) (f.positioned c) := by
  rw [walkNode_eq_visitChild]
  split
  · rename_i hkind
    have hvisit : ∀ e ∈ c.value.children, Traces r
        (VisitsTo r keys indices childDefault f e.1 (c.child e.1 e.2))
        (fun g => visitChild r keys indices childDefault e.1 (c.child e.1 e.2)
          (g.positioned (c.child e.1 e.2))) (f.positioned c) := by
      rintro ⟨key, u⟩ -
      unfold VisitsTo visitChild
      cases hnode : childNode keys indices key with
      | some n => exact below key n hnode (c.child key u)
      | none =>
        exact (optional_traces (fun rs hrs => child rs hrs _) fun _ =>
          carryUnaccounted_traces (f := f.positioned (c.child key u)) _)
    have hchildren : Traces r _ (visitChildren c (visitChild r keys indices childDefault))
        (f.positioned c) := sequence_traces hvisit
    exact ((own (f.positioned c)).andThen hchildren).congr fun t =>
      (walksTo_iff_of_kind hkind).symm
  · rename_i hkind
    have hmistyped : kind.all (· = c.value.kind) = false := by simpa using hkind
    exact ((own (f.positioned c)).andThen (mistyped_traces self)).congr fun t =>
      (walksTo_iff_of_mistyped hmistyped).symm

/-! ## The steps of a run -/

theorem traces_hereditary (r : Resources) : Hereditary
    (fun rule => ∀ f, Traces r (ReachedBy r [rule] f) (run r rule) f)
    (fun node => ∀ f c, Traces r (WalksTo r node f c) (walkNode r node c) (f.positioned c)) where
  newBlock _ _ := traces_own (fun _ => rfl) fun _ _ _ h => by cases h
  newEntity _ _ := traces_own (fun _ => rfl) fun _ _ _ h => by cases h
  newProperties _ _ := traces_own (fun _ => rfl) fun _ _ _ h => by cases h
  carryProperties _ _ := traces_own (fun _ => rfl) fun _ _ _ h => by cases h
  newTags _ _ := traces_own (fun _ => rfl) fun _ _ _ h => by cases h
  carryTag _ _ := traces_own (fun _ => rfl) fun _ _ _ h => by cases h
  script _ _ := traces_own (fun _ => rfl) fun _ _ _ h => by cases h
  mapProperties _ inner f := mapProperties_traces fun key cs hcs t rules hrules =>
    runAll_traces_of fun rule hrule => inner key cs hcs t rules hrules rule hrule f
  mapBlockName _ inner f := mapBlockName_traces fun name rules hrules =>
    runAll_traces_of fun rule hrule => inner name rules hrules rule hrule f
  multiblock _ inner f := multiblock_traces fun offset rules hpart g =>
    runAll_traces_of fun rule hrule => inner offset rules hpart rule hrule g
  walk _ _ inner f := walk_traces (inner f)
  mapTag _ _ inner rest f := mapTag_traces
    (fun cs hcs t rules hrules =>
      runAll_traces_of fun rule hrule => inner cs hcs t rules hrules rule hrule f)
    (runAll_traces_of fun rule hrule => rest rule hrule f)
  node _ _ _ _ _ _ own atKeys atIndices child self f _ := node_traces
    (fun g => runAll_traces_of fun rule hrule => own rule hrule g)
    (fun key n hnode d => by
      rcases childNode_mem hnode with ⟨k, hk⟩ | ⟨i, hi⟩
      · exact atKeys k n hk f d
      · exact atIndices i n hi f d)
    (fun rs hrs g => runAll_traces_of fun rule hrule => child rs hrs rule hrule g)
    (fun rs hrs g => runAll_traces_of fun rule hrule => self rs hrs rule hrule g)

/-- There is one list of the steps that a run in the frame reaches, and from every state the run
takes them in turn. -/
theorem runAll_traces (r : Resources) (rules : List Rule) (f : Frame) :
    ∃ steps : List Step,
      (∀ t, t ∈ steps ↔ Reaches r rules f t.enclosing t.frame t.rule) ∧
      ∀ s, (runAll r rules f s).effect = (play r steps s).effect :=
  runAll_traces_of fun rule _ => (traces_hereditary r).rule rule f

end Rule

end BlockConvert
