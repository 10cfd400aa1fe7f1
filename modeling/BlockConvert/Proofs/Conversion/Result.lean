import BlockConvert.Conversion

set_option autoImplicit false

/-!
# Results of conversions

A conversion gives a result when the tree of the input is at hand, the rules end well and the record
that they name can be built. The flags of the result are those that the rules leave.
-/

namespace BlockConvert.Request

variable {q : Request}

/-- The place of a block can be looked at, wherever its tree is sought there. -/
def OriginReadable (q : Request) : Prop :=
  q.extraInput = none → q.specification.template.isSome = true →
    ∀ look, q.resources.lookup = some look → ∀ e, look .origin ≠ .error e

theorem inputTree_eq_ok_iff {b : Block} (hinput : q.input = .block b) :
    (∃ tree, q.inputTree = .ok tree) ↔ q.OriginReadable := by
  unfold inputTree OriginReadable
  simp only [hinput]
  cases q.extraInput with
  | some e => exact ⟨fun _ => nofun, fun _ => ⟨_, rfl⟩⟩
  | none =>
    cases q.specification.template with
    | none => exact ⟨fun _ _ => nofun, fun _ => ⟨_, rfl⟩⟩
    | some template =>
      cases q.resources.lookup with
      | none => exact ⟨fun _ _ _ _ => nofun, fun _ => ⟨_, rfl⟩⟩
      | some look =>
        cases hlook : look .origin with
        | error e =>
          constructor
          · rintro ⟨tree, htree⟩
            simp only [hlook] at htree
            contradiction
          · exact fun h => absurd hlook (h rfl rfl look rfl e)
        | ok found =>
          simp only [hlook]
          refine ⟨fun _ _ _ l hl e he => ?_, fun _ => ⟨_, rfl⟩⟩
          cases hl
          rw [hlook] at he
          contradiction

theorem inputTree_of_nothing {b : Block} (hinput : q.input = .block b)
    (hextra : q.extraInput = none) (hlookup : q.resources.lookup = none) :
    q.inputTree = .ok none := by
  simp only [inputTree, hinput, hextra, hlookup]
  cases q.specification.template <;> rfl

theorem build_flags {s : State} {t : Conversion} {ns : List Notice}
    (h : q.build s = .ok (t, ns)) : t.extraNeeded = s.extraNeeded ∧ t.cacheable = s.cacheable := by
  unfold build at h
  split at h
  · contradiction
  · dsimp only at h
    split at h
    · contradiction
    · split at h
      · unfold buildBlock at h
        dsimp only at h
        split at h <;> · cases h; exact ⟨rfl, rfl⟩
      · unfold buildEntity at h
        cases h
        exact ⟨rfl, rfl⟩

/-- A request that gives a result ran its rules to a state from which the result is built. -/
theorem run_eq_ok {t : Conversion} (h : q.run.result = .ok t) :
    ∃ tree ns, q.inputTree = .ok tree ∧ (q.decide tree).failure = none ∧
      q.build (q.decide tree).state = .ok (t, ns) := by
  unfold run at h
  split at h
  · contradiction
  · rename_i tree htree
    dsimp only at h
    split at h
    · contradiction
    · rename_i hok
      split at h
      · contradiction
      · rename_i c ns hbuild
        cases h
        exact ⟨tree, ns, htree, hok, hbuild⟩

theorem run_of_build {tree : Option Tag} {t : Conversion} {ns : List Notice}
    (htree : q.inputTree = .ok tree) (hok : (q.decide tree).failure = none)
    (hbuild : q.build (q.decide tree).state = .ok (t, ns)) : q.run.result = .ok t := by
  simp only [run, htree, hok, hbuild]

theorem run_of_unreadable {b : Block} (hinput : q.input = .block b) (h : ¬q.OriginReadable) :
    ∃ e, q.run.result = .error e := by
  cases htree : q.inputTree with
  | ok tree => exact absurd ((inputTree_eq_ok_iff hinput).1 ⟨tree, htree⟩) h
  | error e => exact ⟨e, by simp only [run, htree]⟩

end BlockConvert.Request
