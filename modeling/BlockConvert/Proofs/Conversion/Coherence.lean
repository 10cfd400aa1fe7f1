import BlockConvert.Proofs.Conversion.Scoping
import BlockConvert.Proofs.Interpreter.Coherence

set_option autoImplicit false

/-!
# Where the rules of a conversion run

The rules of a conversion run in frames that are coherent with the place of the request, the record
that it is about and the tree that belongs to the record.
-/

namespace BlockConvert.Request

/-- In all trees that come with the request or can be looked up, every key stands once. -/
structure TreesKeyed (q : Request) : Prop where
  input : ∀ e, q.input = .entity e → e.tree.tag.Throughout Tag.Keyed
  extra : ∀ e, q.extraInput = some e → e.tree.tag.Throughout Tag.Keyed
  template : ∀ t, q.specification.template = some t → t.tag.Throughout Tag.Keyed
  found : ∀ look place found e, q.resources.lookup = some look → look place = .ok found →
    found.blockEntity = some e → e.tree.tag.Throughout Tag.Keyed

def start (q : Request) (tree : Option Tag) : Frame := .start q.input tree q.place

variable {q : Request} {tree : Option Tag}

theorem inputTree_keyed (h : q.TreesKeyed) {t : Tag} (htree : q.inputTree = .ok (some t)) :
    t.Throughout Tag.Keyed := by
  unfold inputTree at htree
  split at htree
  · rename_i e hinput
    split at htree
    · contradiction
    · cases htree
      exact h.input e hinput
  · split at htree
    · rename_i extra hextra
      cases htree
      exact h.extra extra hextra
    · rename_i template lookup _ htemplate hlookup
      split at htree
      · contradiction
      · rename_i found hfound
        cases hentity : found.blockEntity with
        | none =>
          rw [hentity] at htree
          cases htree
          exact h.template template htemplate
        | some e =>
          rw [hentity] at htree
          cases htree
          exact h.found lookup .origin found e hlookup hfound hentity
    · cases htree

theorem TreesKeyed.ofStart (h : q.TreesKeyed) (htree : q.inputTree = .ok tree) :
    BlockConvert.TreesKeyed q.resources (q.start tree) where
  own t ht := by
    obtain rfl : tree = some t := ht
    exact inputTree_keyed h htree
  found := h.found

/-- Every rule that the run of a conversion reaches, at any depth, runs in a coherent frame, and all
that the run decides, and every failure of it, comes from such rules: the run takes just these steps
one after another, each in its frame, until one fails. -/
theorem steps_coherent (q : Request) (tree : Option Tag) (hkeyed : q.TreesKeyed)
    (htree : q.inputTree = .ok tree) :
    (∀ enclosing f rule, Rule.Reaches q.resources q.rules (q.start tree) enclosing f rule →
      f.Coherent q.resources (q.start tree) enclosing) ∧
    Rule.StepsTo q.resources q.rules (q.start tree) .fresh (q.decide tree).state ∧
    (∀ e, (q.decide tree).failure = some e →
      Rule.FailsIn q.resources q.rules (q.start tree) .fresh e) ∧
    ∃ steps : List Rule.Step,
      (∀ t, t ∈ steps ↔
        Rule.Reaches q.resources q.rules (q.start tree) t.enclosing t.frame t.rule) ∧
      (q.decide tree).effect = (Rule.play q.resources steps .fresh).effect := by
  obtain ⟨hstates, hfails⟩ := Rule.runAll_stepsTo q.resources q.rules (q.start tree) .fresh
  obtain ⟨steps, hmem, heffect⟩ := Rule.runAll_traces q.resources q.rules (q.start tree)
  refine ⟨fun enclosing f rule hreach => ?_, hstates, hfails, steps, hmem, heffect .fresh⟩
  have hstart : (q.start tree).Coherent q.resources (q.start tree) [] :=
    Frame.coherent_start rfl rfl
  simpa using hreach.coherent hstart (hkeyed.ofStart htree)

def otherLock : Tag := .compound [("Lock", .string "other")]

/-- The chest beside, where the walk goes on at its lock. -/
def besideLock : Frame :=
  (((lockRequest otherLock).start (some (.compound [("Lock", .string "key")]))).positioned
    lockPosition).neighbour ⟨1, 0, 0⟩ chest (some otherLock)

theorem lock_keyed (text : String) :
    (Tag.compound [("Lock", .string text)]).Throughout Tag.Keyed := by
  refine Tag.throughout_compound (List.pairwise_singleton _ _) fun e he => ?_
  cases List.mem_singleton.1 he
  exact Tag.throughout_of_childless rfl trivial

theorem lockRequest_treesKeyed : (lockRequest otherLock).TreesKeyed where
  input := nofun
  extra e he := by
    cases he
    exact lock_keyed "key"
  template := nofun
  found look place found e hlook hfound he := by
    cases hlook
    cases hfound
    cases he
    exact lock_keyed "other"

theorem reaches_besideLock :
    Rule.Reaches (besideChest otherLock) lockRules
      ((lockRequest otherLock).start (some (.compound [("Lock", .string "key")])))
      [.part ⟨1, 0, 0⟩, .walk] besideLock (.carryTag .same) := by
  have hlock : Rule.Walks (.mk (some .compound) [] [("Lock", lockNode)] [] (some []) none)
      ⟨[], .compound [("Lock", .string "key")]⟩ [.multiblock [.mk ⟨1, 0, 0⟩ [.carryTag .same]]]
      lockPosition :=
    .deeper rfl (List.mem_singleton.2 rfl) rfl .own
  have hpart : Rule.Enters (besideChest otherLock) (.multiblock [.mk ⟨1, 0, 0⟩ [.carryTag .same]])
      (((lockRequest otherLock).start (some (.compound [("Lock", .string "key")]))).positioned
        lockPosition) [.part ⟨1, 0, 0⟩] [.carryTag .same] besideLock :=
    @Rule.Enters.part _ _ _ _ _ _ ⟨some chest, some (chestEntity otherLock)⟩ chest rfl
      (List.mem_singleton.2 rfl) rfl rfl
  have hcarry := Rule.Reaches.inside (List.mem_singleton.2 rfl) hpart (.here List.mem_cons_self)
  exact .inside (List.mem_cons_of_mem _ List.mem_cons_self) (.node (.current rfl) hlock) hcarry

theorem steps_coherent_lock :
    (lockRequest otherLock).TreesKeyed ∧
    (lockRequest otherLock).inputTree = .ok (some (.compound [("Lock", .string "key")])) ∧
    Rule.Reaches (besideChest otherLock) lockRules
      ((lockRequest otherLock).start (some (.compound [("Lock", .string "key")])))
      [.part ⟨1, 0, 0⟩, .walk] besideLock (.carryTag .same) ∧
    besideLock.Coherent (besideChest otherLock)
      ((lockRequest otherLock).start (some (.compound [("Lock", .string "key")])))
      [.part ⟨1, 0, 0⟩, .walk] ∧
    besideLock.cursor = some ⟨[.atKey "Lock" .string], .string "other"⟩ :=
  ⟨lockRequest_treesKeyed, rfl, reaches_besideLock,
    (steps_coherent (lockRequest otherLock) _ lockRequest_treesKeyed rfl).1 _ _ _
      reaches_besideLock, rfl⟩

end BlockConvert.Request
