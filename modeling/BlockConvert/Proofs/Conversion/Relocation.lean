import BlockConvert.Proofs.Conversion.Result
import BlockConvert.Proofs.Decimal.Whole
import BlockConvert.Proofs.Interpreter.Agreement

set_option autoImplicit false

/-!
# Where a result stands

A result that is marked as depending on the block alone still stands at the place that the request
names, if it has a block entity or is an entity. Apart from that place it is the same for all
requests that ask for the same block along the same rules.
-/

namespace BlockConvert

namespace Conversion

def relocate (t : Conversion) (place : Coords) : Conversion where
  output := match t.output with
    | .block b => .block b
    | .entity e => .entity { e with location := .ofCoords place }
  extraOutput := t.extraOutput.map fun e => { e with location := place }
  extraNeeded := t.extraNeeded
  cacheable := t.cacheable

def bearsPlace (t : Conversion) : Bool :=
  match t.output with
  | .block _ => t.extraOutput.isSome
  | .entity _ => true

theorem relocate_eq_iff {t : Conversion} {a b : Coords} :
    t.relocate a = t.relocate b ↔ (t.bearsPlace = true → a = b) := by
  obtain ⟨output, extra, needed, cacheable⟩ := t
  cases output with
  | entity e =>
    simp only [relocate, bearsPlace, Conversion.mk.injEq, Record.entity.injEq, Entity.mk.injEq,
      true_and, and_true, true_implies]
    constructor
    · exact fun h => Location.ofCoords_injective h.1
    · rintro rfl
      exact ⟨rfl, rfl⟩
  | block out =>
    cases extra <;> simp [relocate, bearsPlace]

end Conversion

namespace Request

/-- The requests ask for the same block along the same rules, from perhaps different places with
perhaps different surroundings. -/
structure SameQuestion (q q' : Request) (b : Block) : Prop where
  input : q.input = .block b
  input' : q'.input = .block b
  rules : q'.rules = q.rules
  target : q'.target = q.target
  forceBlockstate : q'.forceBlockstate = q.forceBlockstate
  prepopulate : q'.prepopulate = q.prepopulate

variable {q q' : Request} {b : Block}

theorem buildBlock_relocate (h : SameQuestion q q' b) (id : RecordId) (spec : Specification)
    (s : State) : q'.buildBlock id spec s =
      ((q.buildBlock id spec s).1.relocate q'.place, (q.buildBlock id spec s).2) := by
  unfold buildBlock
  cases spec.template with
  | none => simp [Conversion.relocate, h.input, h.input']
  | some template => simp [Conversion.relocate, paint, h.prepopulate]

theorem buildEntity_relocate (h : SameQuestion q q' b) (id : RecordId) (spec : Specification)
    (s : State) : q'.buildEntity id spec s =
      ((q.buildEntity id spec s).1.relocate q'.place, (q.buildEntity id spec s).2) := by
  have hloc : q'.entityLocation = .ofCoords q'.place := by simp only [entityLocation, h.input']
  unfold buildEntity
  cases spec.template with
  | none => simp [Conversion.relocate, hloc]
  | some template => simp [Conversion.relocate, paint, hloc, h.prepopulate]

theorem build_relocate (h : SameQuestion q q' b) {s : State} {t : Conversion} {ns : List Notice}
    (hbuild : q.build s = .ok (t, ns)) : q'.build s = .ok (t.relocate q'.place, ns) := by
  have hformat : q'.format = q.format := by simp only [format, h.target, h.forceBlockstate]
  unfold build at hbuild ⊢
  rw [hformat, h.target]
  split at hbuild
  · contradiction
  · rename_i id kind _
    dsimp only at hbuild ⊢
    split at hbuild
    · contradiction
    · cases kind with
      | block =>
        have heq := Except.ok.inj hbuild
        simp only [buildBlock_relocate h, heq]
      | entity =>
        have heq := Except.ok.inj hbuild
        simp only [buildEntity_relocate h, heq]

theorem relocate_of_result (hinput : q.input = .block b) {t : Conversion}
    (h : q.run.result = .ok t) : t.relocate q.place = t := by
  obtain ⟨tree, ns, -, -, hbuild⟩ := run_eq_ok h
  have hself : SameQuestion q q b := ⟨hinput, hinput, rfl, rfl, rfl, rfl⟩
  have htwice := build_relocate hself hbuild
  rw [hbuild] at htwice
  exact (congrArg Prod.fst (Except.ok.inj htwice)).symm

/-- A result that is marked as depending on the block alone is, up to its place, the result of every
request that asks the same question and can look at its own place. -/
theorem result_of_cacheable (h : SameQuestion q q' b) {t : Conversion}
    (hresult : q.run.result = .ok t) (hcacheable : t.cacheable = true)
    (hreadable : q'.OriginReadable) : q'.run.result = .ok (t.relocate q'.place) := by
  obtain ⟨tree, ns, htree, hok, hbuild⟩ := run_eq_ok hresult
  obtain ⟨tree', htree'⟩ := (inputTree_eq_ok_iff h.input').2 hreadable
  have hframes : Rule.SameRecord (.start q.input tree q.place) (.start q'.input tree' q'.place) :=
    ⟨h.input'.trans h.input.symm, rfl, rfl⟩
  have hsame : q'.decide tree' = q.decide tree := by
    unfold decide
    rw [h.rules]
    apply Rule.runAll_of_cacheable hframes hok
    exact (build_flags hbuild).2.symm.trans hcacheable
  apply run_of_build htree'
  · rw [hsame]
    exact hok
  · rw [hsame]
    exact build_relocate h hbuild

end Request

end BlockConvert
