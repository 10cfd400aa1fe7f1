import BlockConvert.Proofs.Conversion.Result
import BlockConvert.Proofs.Interpreter.Agreement

set_option autoImplicit false

/-!
# Nothing more is needed

A block that is converted without its tree and without access to the blocks around it may lack data.
If no rule noted that it did, then the result is already what it would be with any such data.
-/

namespace BlockConvert

namespace Action

/-- The frames look at the same record at the same place outside a walk, and the first one has no
tree. -/
def WithoutTree (f g : Frame) : Prop :=
  g.record = f.record ∧ g.absolute = f.absolute ∧ f.cursor = none ∧ g.cursor = none ∧ f.tree = none

theorem use_frame (script : String) (slot : ScriptOutput) (value : ScriptValue) (f g : Frame)
    (s : State) : use script slot value g s = use script slot value f s := by
  unfold use
  split
  · rfl
  · rename_i name
    cases RecordKind.ofName? name <;> rfl
  · rfl
  · rfl
  · rfl

theorem sequence_frame {as : List Action} {f g : Frame} (h : ∀ a ∈ as, ∀ s, a g s = a f s)
    (s : State) : sequence as g s = sequence as f s := by
  induction as generalizing s with
  | nil => rfl
  | cons a rest ih =>
    have hrest : sequence rest g = sequence rest f :=
      funext fun t => ih (fun b hb => h b (List.mem_cons_of_mem _ hb)) t
    simp only [sequence, andThen, h a (by simp) s, hrest]

theorem useAll_frame (c : ScriptCall) (returned : Except ScriptError (List ScriptValue))
    (f g : Frame) (s : State) : useAll c returned g s = useAll c returned f s := by
  unfold useAll
  split
  · apply sequence_frame
    intro a ha t
    rw [← List.map_uncurry_zip_eq_zipWith] at ha
    obtain ⟨⟨slot, value⟩, _, rfl⟩ := List.mem_map.1 ha
    exact use_frame c.script slot value f g t
  · rfl

theorem value_of_not_missing {f g : Frame} (hfg : WithoutTree f g) {i : ScriptInput}
    (hi : i.isMissing f = false) : i.isMissing g = false ∧ i.value g = i.value f := by
  obtain ⟨hrecord, hplace, -, -, htree⟩ := hfg
  cases i with
  | tree => simp [ScriptInput.isMissing, htree] at hi
  | «namespace» | baseName | properties | location =>
    simp [ScriptInput.isMissing, ScriptInput.value, hrecord, hplace]

theorem collect_of_not_missing {body : List ScriptValue → Action}
    (hframe : ∀ vs f g s, body vs g s = body vs f s) (hgrow : ∀ vs, (body vs).GrowsBeyond)
    (inputs : List ScriptInput) {f g : Frame} (hfg : WithoutTree f g) (s : State)
    (hs : s.cacheable = false)
    (hneeded : (collect body inputs f s).state.extraNeeded = false) :
    collect body inputs g s = collect body inputs f s := by
  induction inputs generalizing body s with
  | nil => exact hframe [] f g s
  | cons i rest ih =>
    have hnext : ∀ v, (collect (fun vs => body (v :: vs)) rest).GrowsBeyond := fun v =>
      collect_growsBeyond (fun vs => hgrow (v :: vs)) rest
    cases hi : i.isMissing f with
    | true =>
      -- the missing tree stays noted through all that follows
      simp only [collect, hi, if_true] at hneeded
      split at hneeded
      · rename_i v _
        have := (hnext v f s.needingExtra hs).extraNeeded rfl
        simp [hneeded] at this
      · simp [Outcome.fail, State.needingExtra] at hneeded
    | false =>
      obtain ⟨hi', hv⟩ := value_of_not_missing hfg hi
      simp only [collect, hi, hi', hv, Bool.false_eq_true, if_false] at hneeded ⊢
      split
      · rename_i v hvalue
        simp only [hvalue] at hneeded
        exact ih (fun vs => hframe (v :: vs)) (fun vs => hgrow (v :: vs)) s hs hneeded
      · rfl

end Action

namespace Rule

open BlockConvert.Action

variable {scripts : Scripts}

theorem atCursor_needs {rule : String} {body : Cursor → Action} {f g : Frame}
    (hfg : WithoutTree f g) (s : State) : atCursor rule body f s = needExtra f s := by
  obtain ⟨-, -, hcursor, -, htree⟩ := hfg
  simp only [atCursor, hcursor, htree]

/-- A rule that looks beyond the record and calls no script notes that data is missing. -/
theorem extraNeeded_of_looksBeyond {rule : Rule} (hrule : rule.looksBeyond = true)
    (hscript : ∀ c, rule ≠ .script c) {f g : Frame} (hfg : WithoutTree f g) (s : State) :
    (run ⟨scripts, none⟩ rule f s).state.extraNeeded = true := by
  cases rule with
  | multiblock parts =>
    simp only [run, beyondRecord_apply]
    rfl
  | walk path node =>
    obtain ⟨-, -, -, -, htree⟩ := hfg
    simp only [run, beyondRecord_apply, atPath, htree]
    rfl
  | carryTag c =>
    simp only [run, carry, beyondRecord_apply, atCursor_needs hfg]
    rfl
  | mapTag cases otherwise =>
    simp only [run, beyondRecord_apply, atCursor_needs hfg]
    rfl
  | script c => exact absurd rfl (hscript c)
  | _ => simp [looksBeyond] at hrule

/-- A state in which nothing is missing was reached by rules that asked for no more data. -/
theorem comparison_of_nothing_needed (scripts : Scripts) (lookup : Option Lookup) :
    Comparison ⟨scripts, none⟩ ⟨scripts, lookup⟩ (fun s => s.extraNeeded = false) WithoutTree where
  downward s t hgrow ht := by
    cases hs : s.extraNeeded with
    | false => rfl
    | true => exact absurd (hgrow.extraNeeded hs) (by simp [ht])
  record _ _ h := h.1
  cursor _ _ h := h.2.2.2.1.trans h.2.2.1.symm
  beyond rule hrule f g s hfg _ hneeded := by
    by_cases hscript : ∃ c, rule = .script c
    · obtain ⟨c, rfl⟩ := hscript
      simp only [run, call_eq_collect, beyondRecord_apply] at hneeded ⊢
      exact collect_of_not_missing (fun _ => useAll_frame c _) (fun _ => (useAll_grows c _).beyond)
        c.inputs hfg s.uncacheable rfl hneeded
    · have hmissing : (run ⟨scripts, none⟩ rule f s).state.extraNeeded = true :=
        extraNeeded_of_looksBeyond hrule (fun c hc => hscript ⟨c, hc⟩) hfg s
      exact absurd hneeded (by simp [hmissing])

end Rule

namespace Request

/-- The same request with a block entity for the input and access to the blocks around it. -/
def supplied (q : Request) (extra : Option BlockEntity) (lookup : Option Lookup) : Request :=
  { q with extraInput := extra, resources := ⟨q.resources.scripts, lookup⟩ }

/-- A block that was converted without data, and needs no more, is converted to the same result with
any block entity and any access to the blocks around it. -/
theorem result_of_nothing_needed (q : Request) (b : Block) (t : Conversion)
    (extra : Option BlockEntity) (lookup : Option Lookup) (hinput : q.input = .block b)
    (hextra : q.extraInput = none) (hlookup : q.resources.lookup = none)
    (hresult : q.run.result = .ok t) (hneeded : t.extraNeeded = false)
    (horigin : extra = none → ∀ look, lookup = some look → ∀ e, look .origin ≠ .error e) :
    (q.supplied extra lookup).run.result = .ok t := by
  obtain ⟨tree, ns, htree, hok, hbuild⟩ := run_eq_ok hresult
  obtain rfl : none = tree :=
    Except.ok.inj ((inputTree_of_nothing hinput hextra hlookup).symm.trans htree)
  have hreadable : (q.supplied extra lookup).OriginReadable := fun h _ => horigin h
  obtain ⟨tree', htree'⟩ :=
    (inputTree_eq_ok_iff (q := q.supplied extra lookup) hinput).2 hreadable
  have hresources : q.resources = ⟨q.resources.scripts, none⟩ := by rw [← hlookup]
  have hstate : (q.decide none).state.extraNeeded = false := by
    rw [← (build_flags hbuild).1, hneeded]
  have hsame : (q.supplied extra lookup).decide tree' = q.decide none := by
    unfold decide at hok hstate ⊢
    rw [hresources] at hok hstate ⊢
    exact (Rule.comparison_of_nothing_needed q.resources.scripts lookup).runAll q.rules _ _ _
      ⟨rfl, rfl, rfl, rfl, rfl⟩ hok hstate
  apply run_of_build htree'
  · rw [hsame]
    exact hok
  · rw [hsame]
    exact hbuild

def universalLogs : VersionData :=
  { VersionData.ofMeta ⟨"universal", ⟨1, 0, 0⟩, 0, .blockstate⟩ with
    block := ⟨none, some ⟨.ofList [("universal_minecraft", .ofList [("log",
      ⟨.ofList [("material", .string "oak")], ∅,
        some ⟨⟨"universal_minecraft", "log"⟩, "", .compound, .compound []⟩⟩)])], ∅, ∅⟩⟩ }

def birchRequest : Request where
  input := .block Rule.birchLog
  specification := ⟨∅, ∅, some ⟨⟨"minecraft", "log"⟩, "", .compound, .compound []⟩⟩
  rules := Rule.logRules ++ [.script ⟨"echo", [.properties], [.newProperties]⟩]
  target := universalLogs
  forceBlockstate := true
  resources := ⟨Rule.amongLogs.scripts, none⟩
  extraInput := none
  prepopulate := true
  location := some ⟨1, 2, 3⟩

def convertedBirch : Conversion where
  output := .block (.new ⟨"universal_minecraft", "log"⟩ (.ofList
    [("axis", .string "x"), ("material", .string "birch"), ("variant", .string "birch")]))
  extraOutput := some
    ⟨⟨"universal_minecraft", "log"⟩, ⟨1, 2, 3⟩, ⟨"", .compound [("bark", .byte 1)]⟩⟩
  extraNeeded := false
  cacheable := false

theorem result_of_nothing_needed_birch :
    birchRequest.run.result = .ok convertedBirch ∧ convertedBirch.extraNeeded = false ∧
    (birchRequest.supplied none Rule.amongLogs.lookup).run.result = .ok convertedBirch :=
  ⟨rfl, rfl, result_of_nothing_needed birchRequest Rule.birchLog convertedBirch none
    Rule.amongLogs.lookup rfl rfl rfl rfl rfl fun _ _ hlook _ h => by cases hlook; cases h⟩

end Request

end BlockConvert
