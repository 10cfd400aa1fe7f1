import BlockConvert.Proofs.Conversion.Completeness
import BlockConvert.Proofs.Interpreter.Footing

set_option autoImplicit false

/-!
# Rules inside walks

A rule that reads the position of a walk must stand inside one. This alone does not keep a
conversion from failing for want of a position: a part of a structure of several blocks, inside a
walk, goes on in the tree of another block. Where such parts find footing, no rule misses its
position, and a tag is refused only by a rule that asks for another kind.
-/

namespace BlockConvert

namespace Rule

open BlockConvert.Action

/-- The failures that are left to rules that have a footing: a tag is refused only where some rule
asks for its new kind. -/
def FailsOnFooting (rules : List Rule) : ConversionError → Prop
  | .noWalkPosition _ => False
  | .cast _ target => ∃ enclosing c, Stands rules enclosing (.carryTag c) ∧ c.kind = some target
  | _ => True

variable {r : Resources} {rules : List Rule} {enclosing : List Enclosure} {f g : Frame} {s : State}
  {keep : State → Prop} {fails : ConversionError → Prop}

theorem either_keeps {a b : Action} (p : Frame → Bool) (ha : Keeps keep fails a f)
    (hb : Keeps keep fails b f) : Keeps keep fails (fun f => if p f then a f else b f) f := by
  intro s hs
  dsimp only
  split
  · exact ha s hs
  · exact hb s hs

theorem atCursor_keeps {rule : String} {body : Cursor → Action} (hfooting : f.HasFooting)
    (hneed : Keeps keep fails needExtra f)
    (hbody : ∀ c, f.cursor = some c → Keeps keep fails (body c) f) :
    Keeps keep fails (atCursor rule body) f := by
  intro s hs
  unfold atCursor
  cases hcursor : f.cursor with
  | some c => exact hbody c hcursor s hs
  | none =>
    simp only [hfooting.blind hcursor]
    exact hneed s hs

theorem edit_failure {c : Carry} {cursor : Cursor} {e : ConversionError} (hfirm : cursor.Firm)
    (h : c.edit cursor = .error e) :
    e = .rootCarry ∨ ∃ target, c.kind = some target ∧ e = .cast cursor.value.kind target := by
  unfold Carry.edit at h
  split at h
  · exact .inl (Except.error.inj h).symm
  · rename_i last hlast
    dsimp only at h
    split at h
    · rename_i hcast
      cases hkind : c.kind with
      | none =>
        rw [hkind, Option.getD_none, ← hfirm last hlast, Tag.cast?_self] at hcast
        contradiction
      | some target =>
        rw [hkind, Option.getD_some] at h
        exact .inr ⟨target, rfl, (Except.error.inj h).symm⟩
    · contradiction

theorem noted_failsOnFooting :
    Keeps (fun _ => True) (FailsOnFooting rules) (beyondRecord skip) f :=
  update_keeps fun _ _ => trivial

theorem onBlock_failsOnFooting {rule : String} {body : Block → Action}
    (hbody : ∀ b, Keeps (fun _ => True) (FailsOnFooting rules) (body b) f) :
    Keeps (fun _ => True) (FailsOnFooting rules) (onBlock rule body) f := by
  have hother : Keeps (fun _ => True) (FailsOnFooting rules) (fail (.notABlock rule)) f :=
    fail_keeps trivial
  intro s hs
  unfold onBlock
  split
  · exact hbody _ s hs
  · exact hother s hs

theorem carry_failsOnFooting {c : Carry} (hfooting : f.HasFooting)
    (hcarry : c = .same ∨ ∃ enclosing, Stands rules enclosing (.carryTag c)) :
    Keeps (fun _ => True) (FailsOnFooting rules) (carry c) f := by
  refine noted_failsOnFooting.beyondRecord ?_
  refine atCursor_keeps hfooting (update_keeps fun _ _ => trivial) fun cursor hcursor => ?_
  cases hedit : c.edit cursor with
  | ok e => exact update_keeps fun _ _ => trivial
  | error e =>
    refine fail_keeps ?_
    rcases edit_failure (hfooting.firm cursor hcursor) hedit with rfl | ⟨target, hkind, rfl⟩
    · trivial
    · rcases hcarry with rfl | ⟨enclosing, hstands⟩
      · contradiction
      · exact ⟨enclosing, c, hstands, hkind⟩

theorem own_failsOnFooting {step : Rule} (hstands : Stands rules enclosing step)
    (hscript : ∀ c, step ≠ .script c) (hfooting : step.needsWalk = true → f.HasFooting) :
    Keeps (fun _ => True) (FailsOnFooting rules) (own r step) f := by
  have hneed : Keeps (fun _ => True) (FailsOnFooting rules) needExtra f :=
    update_keeps fun _ _ => trivial
  cases step with
  | newBlock _ | newEntity _ | newProperties _ => exact update_keeps fun _ _ => trivial
  | newTags _ => exact update_keeps (f := f) fun _ _ => trivial
  | carryProperties _ => exact onBlock_failsOnFooting fun _ => update_keeps fun _ _ => trivial
  | mapProperties _ | mapBlockName _ => exact onBlock_failsOnFooting fun _ => skip_keeps
  | multiblock _ =>
    refine noted_failsOnFooting.beyondRecord ?_
    split
    · exact skip_keeps
    · exact hneed
  | walk _ _ =>
    exact noted_failsOnFooting.beyondRecord (either_keeps _ skip_keeps hneed)
  | carryTag c => exact carry_failsOnFooting (hfooting rfl) (.inr ⟨enclosing, hstands⟩)
  | mapTag _ _ =>
    exact noted_failsOnFooting.beyondRecord
      (atCursor_keeps (hfooting rfl) hneed fun _ _ => skip_keeps)
  | script c => exact absurd rfl (hscript c)

/-- Outside all walks there is no position to start with, and rules that need one stand inside
walks; so every step has the footing that it needs. -/
theorem runAll_failsOnFooting (hscript : ScriptFree rules) (hscoped : WellScoped rules)
    (hcursor : f.cursor = none) (hparts : PartsHaveFooting r rules f []) :
    Keeps (fun _ => True) (FailsOnFooting rules) (runAll r rules) f := by
  have hsettled : Settled rules f [] := ⟨fun _ => hcursor, nofun⟩
  apply runAll_keeps
  intro enclosing g step hreach
  have hfooting : .walk ∈ enclosing → step.readsPosition = true → g.HasFooting := fun hwalk =>
    hreach.hasFooting hsettled hparts (by simpa using hwalk)
  rcases hreach.stands with hstands | ⟨hwalk, rfl⟩
  · refine own_failsOnFooting hstands (hscript enclosing step hstands) fun hneeds => ?_
    refine hfooting (hscoped enclosing step hstands hneeds) ?_
    cases step <;> first | rfl | contradiction
  · exact carry_failsOnFooting (hfooting (List.mem_of_mem_head? hwalk) rfl) (.inl rfl)

end Rule

namespace Request

variable {q : Request}

theorem inputTree_eq_error {e : ConversionError} (h : q.inputTree = .error e) :
    e = .entityExtraInput ∨ ∃ cause, e = .lookup cause := by
  unfold inputTree at h
  split at h
  · split at h
    · exact .inl (Except.error.inj h).symm
    · contradiction
  · split at h
    · contradiction
    · split at h
      · rename_i cause _
        exact .inr ⟨cause, (Except.error.inj h).symm⟩
      · contradiction
    · contradiction

theorem build_eq_error {s : State} {e : ConversionError} (h : q.build s = .error e) :
    e = .noOutput ∨ (∃ text, e = .badIdentifier text) ∨ ∃ cause, e = .notFound cause := by
  unfold build at h
  split at h
  · rename_i hname
    cases h
    unfold outputName at hname
    split at hname
    · split at hname
      · contradiction
      · exact .inr (.inl ⟨_, (Except.error.inj hname).symm⟩)
    · exact .inl (Except.error.inj hname).symm
  · dsimp only at h
    split at h
    · exact .inr (.inr ⟨_, (Except.error.inj h).symm⟩)
    · split at h <;> contradiction

/-- A request fails because its tree is not at hand, because its rules fail, or because what they
decide cannot be built. -/
theorem run_eq_error {e : ConversionError} (h : q.run.result = .error e) :
    q.inputTree = .error e ∨ ∃ tree, q.inputTree = .ok tree ∧
      ((q.decide tree).failure = some e ∨ q.build (q.decide tree).state = .error e) := by
  unfold run at h
  split at h
  · rename_i htree
    cases h
    exact .inl htree
  · rename_i tree htree
    dsimp only at h
    refine .inr ⟨tree, htree, ?_⟩
    split at h
    · rename_i hfailure
      cases h
      exact .inl hfailure
    · split at h
      · rename_i hbuild
        cases h
        exact .inr hbuild
      · contradiction

theorem run_of_failure {tree : Option Tag} {e : ConversionError} (htree : q.inputTree = .ok tree)
    (hfailure : (q.decide tree).failure = some e) : q.run.result = .error e := by
  simp only [run, htree, hfailure]

theorem run_failsOnFooting (hscript : Rule.ScriptFree q.rules) (hscoped : Rule.WellScoped q.rules)
    (hparts : ∀ tree, q.inputTree = .ok tree →
      Rule.PartsHaveFooting q.resources q.rules (.start q.input tree q.place) [])
    {e : ConversionError} (h : q.run.result = .error e) : Rule.FailsOnFooting q.rules e := by
  rcases run_eq_error h with htree | ⟨tree, htree, hfailure | hbuild⟩
  · rcases inputTree_eq_error htree with rfl | ⟨cause, rfl⟩ <;> trivial
  · exact (Rule.runAll_failsOnFooting hscript hscoped rfl (hparts tree htree) .fresh trivial).2 e
      hfailure
  · rcases build_eq_error hbuild with rfl | ⟨text, rfl⟩ | ⟨cause, rfl⟩ <;> trivial

/-- Without scripts, with every rule that needs a walk inside one, and with footing wherever a walk
goes on at another block, no conversion fails for want of a position, and a tag is refused only by a
rule that carries it as another kind. -/
theorem failure_on_footing (q : Request) (hscript : Rule.ScriptFree q.rules)
    (hscoped : Rule.WellScoped q.rules)
    (hparts : ∀ tree, q.inputTree = .ok tree →
      Rule.PartsHaveFooting q.resources q.rules (.start q.input tree q.place) []) :
    (∀ rule, q.run.result ≠ .error (.noWalkPosition rule)) ∧
      ∀ source target, q.run.result = .error (.cast source target) →
        ∃ enclosing c, Rule.Stands q.rules enclosing (.carryTag c) ∧ c.kind = some target :=
  ⟨fun _ h => run_failsOnFooting hscript hscoped hparts h,
    fun _ _ h => run_failsOnFooting hscript hscoped hparts h⟩

/-- The lock of a chest is taken from the chest beside it, which has the given tree. -/
def lockNode : WalkNode :=
  .mk (some .string) [.multiblock [.mk ⟨1, 0, 0⟩ [.carryTag .same]]] [] [] none none

def lockRules : List Rule :=
  [.newBlock "universal_minecraft:chest",
    .walk none (.mk (some .compound) [] [("Lock", lockNode)] [] (some []) none)]

def chest : Block := .new ⟨"minecraft", "chest"⟩ ∅

def chestEntity (tree : Tag) : BlockEntity := ⟨⟨"minecraft", "chest"⟩, .origin, ⟨"", tree⟩⟩

def besideChest (tree : Tag) : Resources :=
  ⟨∅, some fun _ => .ok ⟨some chest, some (chestEntity tree)⟩⟩

def universalChests : VersionData :=
  { VersionData.ofMeta ⟨"universal", ⟨1, 0, 0⟩, 0, .blockstate⟩ with
    block := ⟨none, some ⟨.ofList [("universal_minecraft", .ofList [("chest",
      ⟨∅, ∅, some ⟨⟨"universal_minecraft", "chest"⟩, "", .compound, .compound []⟩⟩)])], ∅, ∅⟩⟩ }

def lockRequest (beside : Tag) : Request where
  input := .block chest
  specification := .empty
  rules := lockRules
  target := universalChests
  forceBlockstate := true
  resources := besideChest beside
  extraInput := some (chestEntity (.compound [("Lock", .string "key")]))
  prepopulate := true
  location := none

theorem lockRules_throughout {fits : List Enclosure → Rule → Prop}
    (hnew : fits [] (.newBlock "universal_minecraft:chest"))
    (hwalk : ∀ path node, fits [] (.walk path node))
    (hpart : ∀ parts, fits [.walk] (.multiblock parts))
    (hcarry : fits [.part ⟨1, 0, 0⟩, .walk] (.carryTag .same)) :
    Rule.Throughout fits lockRules := by
  refine Rule.throughout_cons hnew nofun (Rule.throughout_cons (hwalk _ _) (fun e inner h => ?_)
    Rule.throughout_nil)
  cases h with
  | node hnode =>
    cases hnode with
    | own | childDefault => exact Rule.throughout_nil
    | atIndex hmem _ => contradiction
    | atKey hmem hnode =>
      cases List.mem_singleton.1 hmem
      cases hnode with
      | atKey hmem _ | atIndex hmem _ => contradiction
      | own =>
        refine Rule.throughout_cons (hpart _) (fun e inner h => ?_) Rule.throughout_nil
        cases h with
        | part hmem =>
          cases List.mem_singleton.1 hmem
          exact Rule.throughout_cons hcarry nofun Rule.throughout_nil

theorem lockRules_scriptFree : Rule.ScriptFree lockRules :=
  lockRules_throughout nofun nofun nofun nofun

theorem lockRules_wellScoped : Rule.WellScoped lockRules :=
  lockRules_throughout nofun nofun nofun fun _ => by simp

def lockPosition : Cursor := ⟨[.atKey "Lock" .string], .string "key"⟩

theorem walks_lock {rules : List Rule} {d : Cursor}
    (h : Rule.Walks (.mk (some .compound) [] [("Lock", lockNode)] [] (some []) none)
      ⟨[], .compound [("Lock", .string "key")]⟩ rules d) :
    rules = [] ∨ rules = [.multiblock [.mk ⟨1, 0, 0⟩ [.carryTag .same]]] ∧ d = lockPosition := by
  cases h with
  | own | unaccounted _ _ _ => exact .inl rfl
  | mistyped hkind _ => contradiction
  | deeper _ hchild hnode hwalks =>
    cases List.mem_singleton.1 hchild
    cases hnode
    cases hwalks with
    | own => exact .inr ⟨rfl, rfl⟩
    | mistyped hkind _ => contradiction
    | unaccounted _ hchild _ | deeper _ hchild _ _ => contradiction

theorem reaches_lock {r : Resources} {f g : Frame} {enclosing : List Enclosure} {parts : List Part}
    (htree : f.tree = some (.compound [("Lock", .string "key")])) (hcursor : f.cursor = none)
    (h : Rule.Reaches r lockRules f enclosing g (.multiblock parts)) :
    parts = [.mk ⟨1, 0, 0⟩ [.carryTag .same]] ∧ g = f.positioned lockPosition := by
  cases h with
  | here hrule => simp [lockRules] at hrule
  | inside houter hwalk hreach =>
    rcases List.mem_cons.1 houter with rfl | houter
    · cases hwalk
    cases List.mem_singleton.1 houter
    cases hwalk with
    | node hstart hwalks =>
      cases hstart with
      | current hsome =>
        rw [hcursor, Option.getD_none] at hwalks
        cases htree.symm.trans hsome
        rcases walks_lock hwalks with rfl | ⟨rfl, rfl⟩
        · exact absurd hreach Rule.not_reaches_nil
        cases hreach with
        | here hrule =>
          cases List.mem_singleton.1 hrule
          exact ⟨rfl, rfl⟩
        | inside houter hpart hreach =>
          cases List.mem_singleton.1 houter
          cases hpart with
          | part _ hpart _ _ =>
            cases List.mem_singleton.1 hpart
            obtain ⟨-, hrule, -⟩ := Rule.reaches_carryOnly hreach
            contradiction

theorem lockRules_partsHaveFooting :
    Rule.PartsHaveFooting (besideChest (.compound [("Lock", .string "other")])) lockRules
      (.start (.block chest) (some (.compound [("Lock", .string "key")])) .origin) [] := by
  intro enclosing g parts offset inner h hreach _ henters _
  obtain ⟨rfl, rfl⟩ := reaches_lock rfl rfl hreach
  cases henters with
  | part hlookup hpart hfound hblock =>
    cases hlookup
    cases List.mem_singleton.1 hpart
    cases hfound
    exact ⟨fun c hc last hlast => by cases hc; cases hlast; rfl, nofun⟩

theorem failure_on_footing_lock :
    Rule.ScriptFree lockRules ∧ Rule.WellScoped lockRules ∧
    (∀ tree, (lockRequest (.compound [("Lock", .string "other")])).inputTree = .ok tree →
      Rule.PartsHaveFooting (besideChest (.compound [("Lock", .string "other")])) lockRules
        (.start (.block chest) tree .origin) []) ∧
    (∀ rule, (lockRequest (.compound [("Lock", .string "other")])).run.result ≠
      .error (.noWalkPosition rule)) ∧
    ∀ source target, (lockRequest (.compound [("Lock", .string "other")])).run.result =
      .error (.cast source target) →
      ∃ enclosing c, Rule.Stands lockRules enclosing (.carryTag c) ∧ c.kind = some target := by
  have hparts : ∀ tree, (lockRequest (.compound [("Lock", .string "other")])).inputTree = .ok tree →
      Rule.PartsHaveFooting (besideChest (.compound [("Lock", .string "other")])) lockRules
        (.start (.block chest) tree .origin) [] := by
    intro tree htree
    cases htree
    exact lockRules_partsHaveFooting
  exact ⟨lockRules_scriptFree, lockRules_wellScoped, hparts,
    failure_on_footing (lockRequest (.compound [("Lock", .string "other")])) lockRules_scriptFree
      lockRules_wellScoped hparts⟩

/-- In the tree of the chest beside, the path of the walk may lead nowhere, or to a tag of another
kind. Either makes the whole conversion fail, though every carry stands inside the walk and none
asks for a kind. -/
theorem failure_without_footing_lock :
    Rule.ScriptFree lockRules ∧ Rule.WellScoped lockRules ∧
    Rule.Throughout (fun _ rule => ∀ c, rule = .carryTag c → c.kind = none) lockRules ∧
    (lockRequest (.compound [])).run.result = .error (.noWalkPosition "carry_nbt") ∧
    (lockRequest (.compound [("Lock", .int 5)])).run.result = .error (.cast .int .string) :=
  ⟨lockRules_scriptFree, lockRules_wellScoped,
    lockRules_throughout (fun _ h => by cases h) (fun _ _ _ h => by cases h)
      (fun _ _ h => by cases h) (fun _ h => by cases h; rfl),
    run_of_failure rfl (by decide +kernel), run_of_failure rfl (by decide +kernel)⟩

end Request

end BlockConvert
