import BlockConvert.Proofs.Interpreter.Tracing

set_option autoImplicit false

/-!
# What steps keep, runs keep

Apart from the rules inside it, a rule does little: it names an output, adds properties or edits,
notes what it looks at, or fails. If each step that a run reaches keeps a property of states and
fails only in certain ways, so does the run.
-/

namespace BlockConvert

namespace Action

/-- In the frame the action keeps the property and fails only in the given ways. -/
def Keeps (keep : State → Prop) (fails : ConversionError → Prop) (a : Action) (f : Frame) : Prop :=
  ∀ s, keep s → keep (a f s).state ∧ ∀ e, (a f s).failure = some e → fails e

variable {keep : State → Prop} {fails : ConversionError → Prop} {a : Action} {f : Frame}

theorem skip_keeps : Keeps keep fails skip f := fun _ hs => ⟨hs, nofun⟩

theorem update_keeps {change : State → State} (h : ∀ s, keep s → keep (change s)) :
    Keeps keep fails (update change) f := fun s hs => ⟨h s hs, nofun⟩

theorem fail_keeps {e : ConversionError} (h : fails e) : Keeps keep fails (fail e) f :=
  fun _ hs => ⟨hs, fun _ he => Option.some.inj he ▸ h⟩

/-- An action that notes that it looks beyond the record, and then goes on with another one. -/
theorem Keeps.beyondRecord (hskip : Keeps keep fails (beyondRecord skip) f)
    (ha : Keeps keep fails a f) : Keeps keep fails (beyondRecord a) f := by
  intro s hs
  rw [beyondRecord_apply]
  have hnoted := (hskip s hs).1
  rw [beyondRecord_apply] at hnoted
  exact ha _ hnoted

end Action

namespace Rule

open BlockConvert.Action

def StepsKeep (keep : State → Prop) (fails : ConversionError → Prop) (r : Resources)
    (rules : List Rule) (f : Frame) : Prop :=
  ∀ enclosing g step, Reaches r rules f enclosing g step → Keeps keep fails (own r step) g

variable {keep : State → Prop} {fails : ConversionError → Prop} {r : Resources}

theorem play_keeps {steps : List Step}
    (h : ∀ t ∈ steps, Keeps keep fails (own r t.rule) t.frame) {s : State} (hs : keep s) :
    keep (play r steps s).state ∧ ∀ e, (play r steps s).failure = some e → fails e := by
  induction steps generalizing s with
  | nil => exact ⟨hs, nofun⟩
  | cons t rest ih =>
    obtain ⟨hfirst, hrest⟩ := List.forall_mem_cons.1 h
    obtain ⟨hstate, hfails⟩ := hfirst s hs
    cases hfailure : (own r t.rule t.frame s).failure with
    | some e =>
      have hstop : play r (t :: rest) s = own r t.rule t.frame s := by
        simp [play, Outcome.andThen, hfailure]
      rw [hstop]
      exact ⟨hstate, hfails⟩
    | none => simpa [play, Outcome.andThen, hfailure] using ih hrest hstate

/-- A run keeps what all its steps keep, and fails only as they do. -/
theorem runAll_keeps {rules : List Rule} {f : Frame} (h : StepsKeep keep fails r rules f) :
    Keeps keep fails (runAll r rules) f := by
  intro s hs
  obtain ⟨steps, hmem, heffect⟩ := runAll_traces r rules f
  obtain ⟨hstate, hfailure⟩ := Prod.mk.inj (heffect s)
  rw [hstate, hfailure]
  exact play_keeps (fun t ht => h _ _ _ ((hmem t).1 ht)) hs

end Rule

end BlockConvert
