import BlockConvert.Proofs.Interpreter.Keeping

set_option autoImplicit false

/-!
# The footing of a walk

A rule that reads the position of a walk needs one whose path ends with the kind of the tag there. A
walk gives its rules such a footing, and so does every step down. It is lost only at a part of a
structure of several blocks that stands inside a walk: there the walk goes on in the tree of another
block, which may have nothing at the path, or a tag of another kind.
-/

namespace BlockConvert

/-- The last step of the path has the kind of the tag that it leads to. -/
def Cursor.Firm (c : Cursor) : Prop :=
  ∀ last, c.path.getLast? = some last → c.value.kind = last.kind

/-- The position of a walk is at hand and firm, or else there is no tree either. -/
structure Frame.HasFooting (f : Frame) : Prop where
  firm : ∀ c, f.cursor = some c → c.Firm
  blind : f.cursor = none → f.tree = none

namespace Rule

/-- The rules that are of use only inside a walk. -/
def needsWalk : Rule → Bool
  | .carryTag _ | .mapTag _ _ => true
  | _ => false

/-- The rules that look at the position of a walk around them. -/
def readsPosition : Rule → Bool
  | .walk none _ => true
  | rule => rule.needsWalk

/-- Each rule that is of use only inside a walk stands in one. -/
def WellScoped (rules : List Rule) : Prop :=
  Throughout (fun enclosing rule => rule.needsWalk = true → .walk ∈ enclosing) rules

/-- Some rule of the list looks at the position of a walk around the list. -/
def ReadsPosition (rules : List Rule) : Prop :=
  ∃ enclosing rule, Stands rules enclosing rule ∧ .walk ∉ enclosing ∧ rule.readsPosition = true

/-- Wherever a run comes, inside a walk, to a part whose rules look at the position of the walk, it
has footing at the block that it finds there. -/
def PartsHaveFooting (r : Resources) (rules : List Rule) (f : Frame) (around : List Enclosure) :
    Prop :=
  ∀ enclosing g parts offset inner h, Reaches r rules f enclosing g (.multiblock parts) →
    .walk ∈ enclosing ++ around → Enters r (.multiblock parts) g [.part offset] inner h →
    ReadsPosition inner → h.HasFooting

/-- What is known of a frame in which a rule list runs: outside walks it has no position, and inside
a walk it has footing, if the rules look for it. -/
structure Settled (rules : List Rule) (f : Frame) (around : List Enclosure) : Prop where
  outside : .walk ∉ around → f.cursor = none
  inside : .walk ∈ around → ReadsPosition rules → f.HasFooting

variable {r : Resources} {rules inner : List Rule} {f g : Frame} {around e : List Enclosure}
  {c d : Cursor}

theorem firm_child (c : Cursor) (key : PathKey) (t : Tag) : (c.child key t).Firm := by
  intro last hlast
  simp only [Cursor.child, List.getLast?_append, List.getLast?_singleton, Option.some_or,
    Option.some.injEq] at hlast
  rw [← hlast]
  rfl

theorem Walks.firm {node : WalkNode} (h : Walks node c rules d) (hc : c.Firm) : d.Firm := by
  induction h with
  | own => exact hc
  | mistyped _ _ => exact hc
  | unaccounted _ _ _ => exact firm_child _ _ _
  | deeper _ _ _ _ ih => exact ih (firm_child _ _ _)

theorem hasFooting_positioned (hc : c.Firm) : (f.positioned c).HasFooting :=
  ⟨fun _ hd => Option.some.inj hd ▸ hc, nofun⟩

/-- A walk without a path starts where the walk around it is, or at the root. -/
theorem Starts.firm {path : Option Path} (h : Starts path f c)
    (hcurrent : path = none → ∀ d, f.cursor = some d → d.Firm) : c.Firm := by
  cases h with
  | along htree hvalue hkind => exact hkind
  | current htree =>
    cases hcursor : f.cursor with
    | none => exact fun last hlast => by simp at hlast
    | some d => exact hcurrent rfl d hcursor

theorem ReadsPosition.of_opens {outer : Rule} (houter : outer ∈ rules)
    (hopens : outer.Opens [] inner) (h : ReadsPosition inner) : ReadsPosition rules := by
  obtain ⟨enclosing, rule, hstands, hwalk, hreads⟩ := h
  refine ⟨enclosing ++ [], rule, .inside houter hopens hstands, ?_, hreads⟩
  simpa using hwalk

theorem ReadsPosition.of_mem {rule : Rule} (h : rule ∈ rules) (hreads : rule.readsPosition = true) :
    ReadsPosition rules := ⟨[], rule, .here h, List.not_mem_nil, hreads⟩

theorem Settled.positioned {node : WalkNode} {path : Option Path} (h : Settled rules f around)
    (hrule : .walk path node ∈ rules) (hstart : Starts path f c) (hwalks : Walks node c inner d) :
    Settled inner (f.positioned d) (.walk :: around) := by
  have hc : c.Firm := by
    refine hstart.firm ?_
    rintro rfl d hd
    by_cases hwalk : .walk ∈ around
    · exact (h.inside hwalk (.of_mem hrule rfl)).firm d hd
    · rw [h.outside hwalk] at hd
      contradiction
  exact ⟨fun hout => absurd (by simp) hout, fun _ _ => hasFooting_positioned (hwalks.firm hc)⟩

theorem Settled.same {outer : Rule} (h : Settled rules f around) (houter : outer ∈ rules)
    (hopens : outer.Opens [] inner) : Settled inner f around :=
  ⟨h.outside, fun hwalk hreads => h.inside hwalk (hreads.of_opens houter hopens)⟩

theorem Settled.enter {outer : Rule} (h : Settled rules f around)
    (hparts : PartsHaveFooting r rules f around) (houter : outer ∈ rules)
    (henters : Enters r outer f e inner g) : Settled inner g (e ++ around) := by
  have hcopy := henters
  cases henters with
  | propertyCase _ hcases _ hget =>
    exact h.same houter (.propertyCase hcases (Table.mem_of_get?_eq_some hget))
  | nameCase _ hget => exact h.same houter (.nameCase (Table.mem_of_get?_eq_some hget))
  | tagCase _ hget => exact h.same houter (.tagCase (Table.mem_of_get?_eq_some hget))
  | otherwise _ _ => exact h.same houter .otherwise
  | node hstart hwalks => exact h.positioned houter hstart hwalks
  | part hlookup hpart hfound hblock =>
    constructor
    · intro hwalk
      have hcursor := h.outside fun hmem => hwalk (List.mem_cons_of_mem _ hmem)
      simp [Frame.neighbour, hcursor]
    · intro hwalk hreads
      have haround : .walk ∈ [] ++ around := by simpa using hwalk
      exact hparts _ _ _ _ _ _ (.here houter) haround hcopy hreads

theorem PartsHaveFooting.enter {outer : Rule} (h : PartsHaveFooting r rules f around)
    (houter : outer ∈ rules) (henters : Enters r outer f e inner g) :
    PartsHaveFooting r inner g (e ++ around) := by
  intro enclosing g' parts offset inner' h' hreach hwalk henters' hreads
  refine h (enclosing ++ e) g' parts offset inner' h' (.inside houter henters hreach) ?_ henters'
    hreads
  simpa [List.append_assoc] using hwalk

/-- A rule that looks at the position of a walk around it has footing wherever a run comes to it. -/
theorem Reaches.hasFooting {enclosing : List Enclosure} {rule : Rule}
    (h : Reaches r rules f enclosing g rule) (hsettled : Settled rules f around)
    (hparts : PartsHaveFooting r rules f around) (hwalk : .walk ∈ enclosing ++ around)
    (hreads : rule.readsPosition = true) : g.HasFooting := by
  induction h generalizing around with
  | here hrule => exact hsettled.inside (by simpa using hwalk) (.of_mem hrule hreads)
  | inside houter henters _ ih =>
    refine ih (hsettled.enter hparts houter henters) (hparts.enter houter henters) ?_ hreads
    simpa [List.append_assoc] using hwalk

end Rule

end BlockConvert
