import BlockConvert.Proofs.Conversion.Result
import BlockConvert.Proofs.Interpreter.Growth

set_option autoImplicit false

/-!
# The flags of a result

A run leaves a state that has grown from the one it started in, whether it ends well or fails on the
way. A conversion starts from a state that lacks nothing, so no result lacks data and yet depends on
the record alone.
-/

namespace BlockConvert.Request

variable {q : Request}

theorem uncacheable_of_extraNeeded {t : Conversion} (h : q.run.result = .ok t)
    (hneeded : t.extraNeeded = true) : t.cacheable = false := by
  obtain ⟨tree, ns, -, -, hbuild⟩ := run_eq_ok h
  obtain ⟨hextra, hcacheable⟩ := build_flags hbuild
  have hgrows : State.fresh.Grows (q.decide tree).state := Rule.runAll_grows ..
  rw [hcacheable]
  exact hgrows.missing nofun (hextra ▸ hneeded)

/-- What the rules have decided is never taken back, not even by a run that fails; and no result of
a conversion both lacks data and depends on the record alone. -/
theorem decisions_only_grow :
    (∀ (r : Resources) (rules : List Rule) (f : Frame) (s : State),
      s.Grows (Rule.runAll r rules f s).state) ∧
    ∀ (q : Request) (t : Conversion), q.run.result = .ok t →
      ¬(t.extraNeeded = true ∧ t.cacheable = true) := by
  refine ⟨Rule.runAll_grows, fun q t h hboth => ?_⟩
  have huncacheable := uncacheable_of_extraNeeded h hboth.1
  rw [hboth.2] at huncacheable
  contradiction

end BlockConvert.Request
