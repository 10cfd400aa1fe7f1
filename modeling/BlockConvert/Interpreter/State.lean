import BlockConvert.Notice

set_option autoImplicit false

/-!
# What the rules decide

Rules add to a state: the identifier and the kind of the output, properties, and edits for its tree.
They also note whether data was missing and whether the result depends on the record alone.
`Outcome` is a state after rules ran, perhaps only up to a failure, with the notices that were
given.
-/

namespace BlockConvert

structure State where
  outputId : Option String
  outputKind : Option RecordKind
  /-- Properties that differ from the defaults of the output. -/
  properties : Properties
  edits : List Edit
  /-- Data was missing; never taken back. -/
  extraNeeded : Bool
  /-- The result depends on the record alone; never restored. -/
  cacheable : Bool
deriving DecidableEq

namespace State

def fresh : State := ⟨none, none, ∅, [], false, true⟩

def named (s : State) (id : String) (kind : RecordKind) : State :=
  { s with outputId := some id, outputKind := some kind }

def withProperties (s : State) (properties : List (String × Tag)) : State :=
  { s with properties := s.properties.extend properties }

def withEdits (s : State) (edits : List Edit) : State := { s with edits := s.edits ++ edits }

def needingExtra (s : State) : State := { s with extraNeeded := true }

def uncacheable (s : State) : State := { s with cacheable := false }

end State

structure Outcome where
  state : State
  notices : List Notice
  failure : Option ConversionError

namespace Outcome

def done (s : State) : Outcome := ⟨s, [], none⟩

def fail (s : State) (e : ConversionError) : Outcome := ⟨s, [], some e⟩

def andThen (o : Outcome) (next : State → Outcome) : Outcome :=
  match o.failure with
  | some _ => o
  | none =>
    let n := next o.state
    ⟨n.state, o.notices ++ n.notices, n.failure⟩

@[simp] theorem done_andThen (s : State) (next : State → Outcome) :
    (done s).andThen next = next s := by simp [done, andThen]

@[simp] theorem andThen_done (o : Outcome) : o.andThen done = o := by
  obtain ⟨s, notices, failure⟩ := o
  cases failure <;> simp [andThen, done]

theorem andThen_assoc (o : Outcome) (f g : State → Outcome) :
    (o.andThen f).andThen g = o.andThen fun s => (f s).andThen g := by
  cases h : o.failure with
  | some e => simp [andThen, h]
  | none => cases h' : (f o.state).failure <;> simp [andThen, h, h']

end Outcome

end BlockConvert
