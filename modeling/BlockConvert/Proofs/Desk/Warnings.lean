import BlockConvert.Proofs.Desk.Misses

set_option autoImplicit false

/-!
# Which missing entries are warned of

A missing entry is reported once, at the level that suits the call that misses it first. For a block
held as numbers this is not a warning, and then no later call with the same key gives one. So the
warnings do not depend on the order of the calls just for keys that are missed only by such blocks
or only by others.
-/

namespace BlockConvert

namespace Call

/-- The call takes from the universal form a block that has only a number for its data. -/
def HeldAsNumbers : Call → Prop
  | block q => q.direction = .fromUniversal ∧ q.block.id.space = RecordId.defaultSpace ∧
    q.block.properties.keys = ["block_data"]
  | entity _ => False

instance (q : Call) : Decidable q.HeldAsNumbers :=
  match q with
  | block _ => inferInstanceAs (Decidable (_ ∧ _ ∧ _))
  | entity _ => inferInstanceAs (Decidable False)

end Call

namespace Notice

def isWarning (n : Notice) : Bool := n.level = .warn

end Notice

namespace Desk

variable {c : Converters} {kind : RecordKind} {key : MissingKey} {past calls : List Call}
  {p q : Call}

theorem isHeldAsNumbers_iff (b : Block) : isHeldAsNumbers b = true ↔
    b.id.space = RecordId.defaultSpace ∧ b.properties.keys = ["block_data"] := by
  simp [isHeldAsNumbers]

theorem isWarning_missingNotice (c : Converters) (q : Call) (cause : NotFound) :
    (missingNotice (c.subject q.record q.direction) cause).isWarning = !decide q.HeldAsNumbers := by
  cases q with
  | entity q => rcases q with ⟨_ | _, _, _⟩ <;> rfl
  | block q =>
    obtain ⟨direction, block, lookup, forceBlockstate, extraInput, location⟩ := q
    cases direction with
    | toUniversal => rfl
    | fromUniversal =>
      have hheld : (Call.block ⟨.fromUniversal, block, lookup, forceBlockstate, extraInput,
          location⟩).HeldAsNumbers ↔ isHeldAsNumbers block = true := by
        simp [Call.HeldAsNumbers, isHeldAsNumbers_iff]
      by_cases h : isHeldAsNumbers block = true <;>
        simp [missingNotice, Converters.subject, Call.record, Call.direction, Notice.isWarning,
          Notice.level, hheld, h]

/-- What calls give as warnings of a missing entry when they are served in turn. -/
def warnings (c : Converters) (kind : RecordKind) (key : MissingKey) (calls : List Call) :
    List Notice :=
  (reports c kind key [] calls).filter Notice.isWarning

def firstMiss? (c : Converters) (kind : RecordKind) (key : MissingKey) (calls : List Call) :
    Option Call :=
  calls.find? fun q => q.Misses c kind key

theorem firstMiss?_cons_of_miss (h : q.Misses c kind key) (rest : List Call) :
    firstMiss? c kind key (q :: rest) = some q :=
  List.find?_cons_of_pos (by simpa using h)

theorem firstMiss?_cons_of_not_miss (h : ¬q.Misses c kind key) (rest : List Call) :
    firstMiss? c kind key (q :: rest) = firstMiss? c kind key rest :=
  List.find?_cons_of_neg (by simpa using h)

/-! ## One call -/

theorem length_warnings_answer (h : q.Misses c kind key)
    (hpast : ¬∃ p ∈ past, p.Misses c kind key) :
    (((answer c past q).notices.filter Notice.isMissing).filter Notice.isWarning).length =
      if q.HeldAsNumbers then 0 else 1 := by
  obtain ⟨rfl, hkey⟩ := h
  rw [answer_notices]
  cases hroute : q.route c with
  | ok route => simp [Call.missingKey?, hroute] at hkey
  | error cause =>
    simp only [Call.missingKey?, hroute] at hkey
    obtain rfl := Option.some.inj hkey
    dsimp only
    rw [if_neg hpast]
    by_cases hheld : q.HeldAsNumbers <;> simp [isWarning_missingNotice, hheld]

/-! ## Runs of calls -/

theorem reports_eq_nil (hpast : ∃ p ∈ past, p.Misses c kind key) :
    reports c kind key past calls = [] := by
  rw [← List.length_eq_zero_iff, length_reports, if_neg fun h => h.2 hpast]

/-- The induction is on the calls, as long as none of those before has missed the entry. -/
theorem length_warnings_reports (hpast : ¬∃ p ∈ past, p.Misses c kind key) :
    ((reports c kind key past calls).filter Notice.isWarning).length =
      if (firstMiss? c kind key calls).any fun q => !decide q.HeldAsNumbers then 1 else 0 := by
  induction calls generalizing past with
  | nil => rfl
  | cons q rest ih =>
    rw [reports, List.filter_append, List.length_append]
    by_cases hq : q.Misses c kind key
    · have hpast' : ∃ p ∈ past ++ [q], p.Misses c kind key := ⟨q, by simp, hq⟩
      rw [if_pos hq, length_warnings_answer hq hpast, reports_eq_nil hpast',
        firstMiss?_cons_of_miss hq]
      by_cases hheld : q.HeldAsNumbers <;> simp [hheld]
    · have hpast' : ¬∃ p ∈ past ++ [q], p.Misses c kind key := by
        simpa [or_and_right, exists_or, hq] using hpast
      rw [if_neg hq, ih hpast', firstMiss?_cons_of_not_miss hq]
      exact Nat.zero_add _

theorem length_warnings (c : Converters) (kind : RecordKind) (key : MissingKey)
    (calls : List Call) : (warnings c kind key calls).length =
      if (firstMiss? c kind key calls).any fun q => !decide q.HeldAsNumbers then 1 else 0 :=
  length_warnings_reports (by simp)

theorem length_warnings_cons (hq : q.Misses c kind key) (rest : List Call) :
    (warnings c kind key (q :: rest)).length = if q.HeldAsNumbers then 0 else 1 := by
  rw [length_warnings, firstMiss?_cons_of_miss hq]
  by_cases hheld : q.HeldAsNumbers <;> simp [hheld]

/-! ## Orders of calls -/

/-- The calls that miss the entry are all for blocks held as numbers, or none of them is. -/
def Uniform (c : Converters) (kind : RecordKind) (key : MissingKey) (calls : List Call) : Prop :=
  ∀ p ∈ calls, ∀ q ∈ calls, p.Misses c kind key → q.Misses c kind key →
    (p.HeldAsNumbers ↔ q.HeldAsNumbers)

theorem Uniform.perm {order : List Call} (h : Uniform c kind key calls)
    (horder : order.Perm calls) : Uniform c kind key order := fun p hp q hq =>
  h p (horder.mem_iff.1 hp) q (horder.mem_iff.1 hq)

theorem Uniform.length_warnings (h : Uniform c kind key calls) :
    (warnings c kind key calls).length =
      if ∃ q ∈ calls, q.Misses c kind key ∧ ¬q.HeldAsNumbers then 1 else 0 := by
  rw [Desk.length_warnings]
  cases hfirst : firstMiss? c kind key calls with
  | none =>
    have hnone : ¬∃ q ∈ calls, q.Misses c kind key ∧ ¬q.HeldAsNumbers := by
      rintro ⟨q, hq, hmiss, -⟩
      simpa [hmiss] using List.find?_eq_none.1 hfirst q hq
    rw [if_neg hnone]
    rfl
  | some p =>
    have hp : p ∈ calls := List.mem_of_find?_eq_some hfirst
    have hpmiss : p.Misses c kind key := by simpa using List.find?_some hfirst
    have hsort : (∃ q ∈ calls, q.Misses c kind key ∧ ¬q.HeldAsNumbers) ↔ ¬p.HeldAsNumbers :=
      ⟨fun ⟨q, hq, hmiss, hheld⟩ => fun hpheld => hheld ((h p hp q hq hpmiss hmiss).1 hpheld),
        fun hpheld => ⟨p, hp, hpmiss, hpheld⟩⟩
    simp only [hsort, Option.any_some]
    by_cases hheld : p.HeldAsNumbers <;> simp [hheld]

/-- Calls of both sorts give different warnings in different orders. -/
theorem exists_orders (h : ¬Uniform c kind key calls) :
    (∃ q ∈ calls, q.Misses c kind key ∧ ¬q.HeldAsNumbers) ∧
    ∃ order order' : List Call, order.Perm calls ∧ order'.Perm calls ∧
      (warnings c kind key order).length = 0 ∧ (warnings c kind key order').length = 1 := by
  have first : ∀ q ∈ calls, q.Misses c kind key → ∃ order : List Call, order.Perm calls ∧
      (warnings c kind key order).length = if q.HeldAsNumbers then 0 else 1 := fun q hq hmiss => by
    obtain ⟨before, behind, rfl⟩ := List.append_of_mem hq
    exact ⟨q :: (before ++ behind), List.perm_middle.symm, length_warnings_cons hmiss _⟩
  simp only [Uniform, not_forall] at h
  obtain ⟨p, hp, q, hq, hpmiss, hqmiss, hsorts⟩ := h
  obtain ⟨order, horder, hlength⟩ := first p hp hpmiss
  obtain ⟨order', horder', hlength'⟩ := first q hq hqmiss
  by_cases hheld : p.HeldAsNumbers
  · have hq' : ¬q.HeldAsNumbers := fun hqheld => hsorts ⟨fun _ => hqheld, fun _ => hheld⟩
    rw [if_pos hheld] at hlength
    rw [if_neg hq'] at hlength'
    exact ⟨⟨q, hq, hqmiss, hq'⟩, order, order', horder, horder', hlength, hlength'⟩
  · have hq' : q.HeldAsNumbers := by
      by_contra hqheld
      exact hsorts ⟨fun h => absurd h hheld, fun h => absurd h hqheld⟩
    rw [if_neg hheld] at hlength
    rw [if_pos hq'] at hlength'
    exact ⟨⟨p, hp, hpmiss, hheld⟩, order', order, horder', horder, hlength', hlength⟩

/-- The warnings of a missing entry do not depend on the order of the calls, and there is one just
when a block that is not held as numbers has missed it, exactly if the calls that miss it are of one
sort. -/
theorem warnings_order_free_iff (c : Converters) (kind : RecordKind) (key : MissingKey)
    (calls : List Call) :
    ((∀ order order' : List Call, order.Perm calls → order'.Perm calls →
        (warnings c kind key order).length = (warnings c kind key order').length) ↔
      Uniform c kind key calls) ∧
    ((∀ order : List Call, order.Perm calls → (warnings c kind key order).length =
        if ∃ q ∈ calls, q.Misses c kind key ∧ ¬q.HeldAsNumbers then 1 else 0) ↔
      Uniform c kind key calls) := by
  have hall (h : Uniform c kind key calls) (order : List Call) (horder : order.Perm calls) :
      (warnings c kind key order).length =
        if ∃ q ∈ calls, q.Misses c kind key ∧ ¬q.HeldAsNumbers then 1 else 0 := by
    rw [(h.perm horder).length_warnings]
    simp only [horder.mem_iff]
  refine ⟨⟨fun h => ?_, fun h order order' horder horder' => ?_⟩, ⟨fun h => ?_, hall⟩⟩
  · by_contra hmixed
    obtain ⟨-, order, order', horder, horder', hnone, hone⟩ := exists_orders hmixed
    rw [h order order' horder horder', hone] at hnone
    contradiction
  · rw [hall h order horder, hall h order' horder']
  · by_contra hmixed
    obtain ⟨hloud, order, -, horder, -, hnone, -⟩ := exists_orders hmixed
    rw [h order horder, if_pos hloud] at hnone
    contradiction

def bareConverters : Converters where
  version := .ofMeta ⟨"java", ⟨1, 13, 2⟩, 1631, .blockstate⟩
  universal := .ofMeta ⟨"universal", ⟨1, 0, 0⟩, 0, .blockstate⟩
  scripts := ∅
  prepopulate := true

def ghostCall (properties : Properties) : Call :=
  .block ⟨.fromUniversal, .new ⟨"minecraft", "ghost"⟩ properties, none, false, none, none⟩

def ghostCalls : List Call :=
  [ghostCall (.ofList [("block_data", .string "1")]), ghostCall ∅]

/-- The block held as numbers takes the report of the key, and no warning is left for the other. -/
theorem warnings_of_ghosts :
    (∃ q ∈ ghostCalls, q.Misses bareConverters .block
      ⟨"minecraft:ghost", .fromUniversal, .blockstate⟩ ∧ ¬q.HeldAsNumbers) ∧
    (warnings bareConverters .block ⟨"minecraft:ghost", .fromUniversal, .blockstate⟩
      ghostCalls).length = 0 ∧
    (warnings bareConverters .block ⟨"minecraft:ghost", .fromUniversal, .blockstate⟩
      ghostCalls.reverse).length = 1 := by
  decide

end Desk

end BlockConvert
