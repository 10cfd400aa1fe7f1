import BlockConvert.Proofs.Conversion.Result
import BlockConvert.Proofs.Interpreter.Growth
import BlockConvert.Proofs.Paint.Idempotence
import BlockConvert.Proofs.Paint.Rebuilding
import Mathlib.Data.List.Nodup

set_option autoImplicit false

/-!
# Trees that are moved and moved back

An entity may keep its whole tree in one entry of the tree of its universal form. The walk that
packs the tree and the walk that unpacks it carry each entry of a known key and do nothing else, so
that packing and unpacking restore the tree, over what the entity has by default.
-/

namespace BlockConvert

namespace WalkNode

/-- A node that carries tags of a kind to a path and has no rules for what is inside them. -/
def mover (path : Path) (kind : Kind) : WalkNode :=
  .mk (some kind) [.carryTag ⟨"", .compound, some path, none, none⟩] [] [] (some []) none

def movers (path : Path) (kinds : Dict Kind) : WalkNode :=
  .mk (some .compound) [] (kinds.entries.map fun e => (e.1, mover path e.2)) [] (some []) none

def under (key : String) (node : WalkNode) : WalkNode :=
  .mk (some .compound) [] [(key, node)] [] (some []) none

end WalkNode

namespace Rule

def packing (target : RecordId) (inner : String) (kinds : Dict Kind) : List Rule :=
  [.newEntity target.text, .walk none (.movers [.atKey inner .compound] kinds)]

def unpacking (target : RecordId) (inner : String) (kinds : Dict Kind) : List Rule :=
  [.newEntity target.text, .walk none (.under inner (.movers [] kinds))]

end Rule

namespace Edit

/-- The edits that write the entries into the compound at the path. -/
def entriesAt (path : Path) (entries : List (String × Tag)) : List Edit :=
  entries.map fun e => .new path (.key e.1) e.2

theorem entriesAt_beneath (step : PathStep) (entries : List (String × Tag)) :
    entriesAt [step] entries = (entriesAt [] entries).map (beneath [step]) := by
  simp [entriesAt, beneath, new, Function.comp_def]

theorem isFor_of_mem_entriesAt {path : Path} {entries : List (String × Tag)} :
    ∀ e ∈ entriesAt path entries, e.isFor "" .compound = true := by
  intro e he
  obtain ⟨entry, -, rfl⟩ := List.mem_map.1 he
  rfl

end Edit

namespace Paint

theorem paint_entriesAt (table entries : List (String × Tag)) :
    paint (.compound table) (Edit.entriesAt [] entries) =
      .compound (Table.extend table entries) := by
  rw [paint_compound, paintEntries, Edit.entriesAt, List.foldl_map]
  rfl

theorem child?_paint_entriesAt {t v : Tag} {key : String} {entries : List (String × Tag)}
    (h : t.kind = .compound) (hkeys : (entries.map Prod.fst).Nodup) (hmem : (key, v) ∈ entries) :
    (paint t (Edit.entriesAt [] entries)).child? key = some v := by
  obtain ⟨table, rfl⟩ := Tag.exists_eq_compound h
  rw [paint_entriesAt]
  exact Table.get?_extend_of_mem hmem fun w hw =>
    (Prod.mk.inj (List.inj_on_of_nodup_map hkeys hw hmem rfl)).2

theorem build_entriesAt (path : Path) (entries : List (String × Tag)) (template : Option Tag) :
    (build "" .compound (Edit.entriesAt path entries) template).tree.tag =
      paint (template.getD (Tag.empty .compound)) (Edit.entriesAt path entries) := by
  rw [tag_build, List.filter_eq_self.2 Edit.isFor_of_mem_entriesAt]

theorem kind_getD {template : Option Tag} {kind : Kind} (h : ∀ u ∈ template, u.kind = kind) :
    (template.getD (Tag.empty kind)).kind = kind := by
  cases template with
  | none => exact Tag.kind_empty kind
  | some u => exact h u rfl

theorem paint_beneath (key : String) (t : Tag) (es : List Edit) :
    paint (.compound [(key, t)]) (es.map (Edit.beneath [.atKey key t.kind])) =
      .compound [(key, paint t es)] := by
  induction es generalizing t with
  | nil => rfl
  | cons e rest ih =>
    have hopen : openChild (Table.get? [(key, t)] key) t.kind = t := by
      rw [Table.get?_cons, if_pos rfl, openChild_some, if_pos rfl]
    have hstroke : strokeEntries [(key, t)] (e.beneath [.atKey key t.kind]) =
        [(key, (apply t e).tag)] := by
      show Table.insert key ((e.beneath [.atKey key t.kind]).onChild _) [(key, t)] = _
      rw [Edit.onChild_below rfl, Edit.below_beneath]
      show Table.insert key (apply (openChild (Table.get? [(key, t)] key) t.kind) e).tag _ = _
      rw [hopen, Table.insert, if_pos rfl]
    rw [List.map_cons, paint_cons, apply_compound, hstroke, paint_cons, ← ih, kind_apply]

theorem paint_entriesAt_beneath (key : String) (table entries : List (String × Tag)) :
    paint (.compound [(key, .compound table)]) (Edit.entriesAt [.atKey key .compound] entries) =
      .compound [(key, .compound (Table.extend table entries))] := by
  rw [Edit.entriesAt_beneath, ← paint_entriesAt]
  exact paint_beneath key (.compound table) (Edit.entriesAt [] entries)

end Paint

namespace Action

/-- Where the result is known to depend on more than the record, all that the action does is to add
these edits. -/
def OnlyPaints (a : Action) (f : Frame) (es : List Edit) : Prop :=
  ∀ s, s.cacheable = false → a f s = .done (s.withEdits es)

variable {a b : Action} {f : Frame} {es fs : List Edit}

theorem skip_onlyPaints : OnlyPaints skip f [] := by
  intro s _
  rw [skip, State.withEdits, List.append_nil]

theorem OnlyPaints.andThen (ha : OnlyPaints a f es) (hb : OnlyPaints b f fs) :
    OnlyPaints (a.andThen b) f (es ++ fs) := by
  intro s hs
  have hnext : b f (s.withEdits es) = .done ((s.withEdits es).withEdits fs) := hb _ hs
  rw [Action.andThen, ha s hs, Outcome.done_andThen, hnext]
  simp only [State.withEdits, List.append_assoc]

theorem sequence_onlyPaints {α : Type} {xs : List α} {act : α → Action} {es : α → List Edit}
    (h : ∀ x ∈ xs, OnlyPaints (act x) f (es x)) :
    OnlyPaints (sequence (xs.map act)) f (xs.flatMap es) := by
  induction xs with
  | nil => exact skip_onlyPaints
  | cons x rest ih =>
    exact (h x (by simp)).andThen (ih fun y hy => h y (List.mem_cons_of_mem _ hy))

theorem carry_onlyPaints {p path : Path} {key : PathKey} {u : Tag}
    (hcursor : f.cursor = some ⟨p ++ [⟨key, u.kind⟩], u⟩) :
    OnlyPaints (carry ⟨"", .compound, some path, none, none⟩) f [.new path key u] := by
  intro s hs
  have hedit : Carry.edit ⟨"", .compound, some path, none, none⟩ ⟨p ++ [⟨key, u.kind⟩], u⟩ =
      .ok (.new path key u) := by
    simp [Carry.edit, Tag.cast?_self, Edit.new]
  have hnoted : s.uncacheable = s := by
    cases s
    cases hs
    rfl
  rw [carry, beyondRecord_apply, hnoted]
  simp only [atCursor, hcursor, hedit]
  rfl

end Action

namespace Rule

open BlockConvert.Action

variable {r : Resources} {f : Frame} {es : List Edit}

theorem mover_onlyPaints (path p : Path) (key : PathKey) (u : Tag) :
    OnlyPaints (walkNode r (.mover path u.kind) ⟨p ++ [⟨key, u.kind⟩], u⟩)
      (f.positioned ⟨p ++ [⟨key, u.kind⟩], u⟩) [.new path key u] := by
  have hinside : OnlyPaints
      (visitChildren ⟨p ++ [⟨key, u.kind⟩], u⟩ (visitChild r [] [] (some [])))
      (f.positioned ⟨p ++ [⟨key, u.kind⟩], u⟩) (u.children.flatMap fun _ => []) := by
    refine sequence_onlyPaints fun c _ => ?_
    obtain ⟨key', child⟩ := c
    cases key' <;> exact skip_onlyPaints
  rw [List.flatMap_eq_nil_iff.2 fun _ _ => rfl] at hinside
  rw [WalkNode.mover, walkNode_eq_visitChild, if_pos (by simp)]
  exact ((carry_onlyPaints rfl).andThen skip_onlyPaints).andThen hinside

/-- A node for a compound without rules of its own leaves each entry to the node for its key. -/
theorem compound_onlyPaints {keys : List (String × WalkNode)} {content : List (String × Tag)}
    {p : Path} {es : String × Tag → List Edit}
    (h : ∀ e ∈ content, ∃ n, Table.get? keys e.1 = some n ∧
      OnlyPaints (walkNode r n ⟨p ++ [.atKey e.1 e.2.kind], e.2⟩)
        (f.positioned ⟨p ++ [.atKey e.1 e.2.kind], e.2⟩) (es e)) :
    OnlyPaints (walkNode r (.mk (some .compound) [] keys [] (some []) none) ⟨p, .compound content⟩)
      (f.positioned ⟨p, .compound content⟩) (content.flatMap es) := by
  have hchildren : OnlyPaints
      (visitChildren ⟨p, .compound content⟩ (visitChild r keys [] (some [])))
      (f.positioned ⟨p, .compound content⟩) (content.flatMap es) := by
    rw [visitChildren, Tag.children, List.map_map]
    refine sequence_onlyPaints fun e he => ?_
    obtain ⟨n, hget, hn⟩ := h e he
    have hnode : childNode keys [] (.key e.1) = some n := hget
    simp only [Function.comp_apply, visitChild, hnode]
    exact hn
  rw [walkNode_eq_visitChild, if_pos (by simp [Tag.kind])]
  exact skip_onlyPaints.andThen hchildren

theorem movers_onlyPaints {kinds : Dict Kind} {content : List (String × Tag)}
    (hkinds : ∀ e ∈ content, kinds.get? e.1 = some e.2.kind) (path p : Path) :
    OnlyPaints (walkNode r (.movers path kinds) ⟨p, .compound content⟩)
      (f.positioned ⟨p, .compound content⟩) (Edit.entriesAt path content) := by
  rw [Edit.entriesAt, List.map_eq_flatMap]
  refine compound_onlyPaints fun e he => ⟨.mover path e.2.kind, ?_, mover_onlyPaints path p _ _⟩
  rw [Table.get?_map, ← Dict.get?, hkinds e he, Option.map_some]

theorem under_onlyPaints {node : WalkNode} {key : String} {u : Tag} {p : Path}
    (h : OnlyPaints (walkNode r node ⟨p ++ [.atKey key u.kind], u⟩)
      (f.positioned ⟨p ++ [.atKey key u.kind], u⟩) es) :
    OnlyPaints (walkNode r (.under key node) ⟨p, .compound [(key, u)]⟩)
      (f.positioned ⟨p, .compound [(key, u)]⟩) es := by
  have honly : [(key, u)].flatMap (fun _ => es) = es := List.append_nil es
  rw [← honly]
  refine compound_onlyPaints fun e he => ⟨node, ?_⟩
  cases List.mem_singleton.1 he
  exact ⟨if_pos rfl, h⟩

theorem runAll_onlyPaints {node : WalkNode} {tree : Tag} (id : String)
    (htree : f.tree = some tree) (hcursor : f.cursor = none)
    (h : OnlyPaints (walkNode r node ⟨[], tree⟩) (f.positioned ⟨[], tree⟩) es) (s : State) :
    runAll r [.newEntity id, .walk none node] f s =
      .done ((s.named id .entity).uncacheable.withEdits es) := by
  have hwalk : run r (.walk none node) f (s.named id .entity) =
      .done ((s.named id .entity).uncacheable.withEdits es) := by
    simp only [run, beyondRecord_apply, atPath, htree, hcursor, Option.getD_none]
    exact h _ rfl
  have hname : run r (.newEntity id) f s = .done (s.named id .entity) := rfl
  simp only [runAll, Action.andThen, hname, hwalk, Outcome.done_andThen]
  rfl

end Rule

namespace Request

/-- The request makes an entity of the rules, over the tree that it has by default. -/
structure MakesEntity (q : Request) (rules : List Rule) (target : RecordId)
    (template : List (String × Tag)) : Prop where
  rules : q.rules = rules
  extraInput : q.extraInput = none
  prepopulate : q.prepopulate = true
  name : RecordId.ofText? target.text = some target
  template : ∃ spec id, q.target.entity.specification q.format target = .ok spec ∧
    spec.template = some ⟨id, "", .compound, .compound template⟩

open BlockConvert.Action

theorem run_onlyPaints {q : Request} {e : Entity} {node : WalkNode} {target : RecordId}
    {template : List (String × Tag)} {es : List Edit}
    (h : q.MakesEntity [.newEntity target.text, .walk none node] target template)
    (hinput : q.input = .entity e) (hfor : ∀ d ∈ es, d.isFor "" .compound = true)
    (hwalk : ∀ f : Frame, OnlyPaints (Rule.walkNode q.resources node ⟨[], e.tree.tag⟩)
      (f.positioned ⟨[], e.tree.tag⟩) es) :
    q.run.result = .ok ⟨.entity ⟨target, e.location,
      ⟨"", Paint.paint (.compound template) es⟩⟩, none, false, false⟩ := by
  obtain ⟨spec, id, hspec, htemplate⟩ := h.template
  let decided := (State.fresh.named target.text .entity).uncacheable.withEdits es
  have htree : q.inputTree = .ok (some e.tree.tag) := by
    simp only [inputTree, hinput, h.extraInput]
  have hdecide : q.decide (some e.tree.tag) = .done decided := by
    rw [decide, h.rules]
    exact Rule.runAll_onlyPaints target.text rfl rfl (hwalk _) .fresh
  have hbuild : q.build (q.decide (some e.tree.tag)).state =
      .ok (q.buildEntity target spec decided) := by
    have hname : outputName decided = .ok (target, .entity) := by
      simp only [outputName, decided, State.withEdits, State.uncacheable, State.named, h.name]
    rw [hdecide]
    simp only [build, Outcome.done, hname, hspec]
  have hpaint : (q.paint ⟨id, "", .compound, .compound template⟩ decided).tree =
      ⟨"", Paint.paint (.compound template) es⟩ := by
    have hedits : decided.edits.filter (·.isFor "" .compound) = es := List.filter_eq_self.2 hfor
    rw [paint, Paint.tag_build, h.prepopulate, hedits]
    rfl
  rw [run_of_build htree (by rw [hdecide]; rfl) hbuild]
  simp only [htemplate, hpaint, entityLocation, hinput]
  rfl

/-- An entity that is packed and then unpacked has its entries over those that it has by default. -/
theorem unpacking_packing {q back : Request} {e : Entity} {native universal : RecordId}
    {inner : String} {kinds : Dict Kind} {content base : Dict Tag}
    (hpack : q.MakesEntity (Rule.packing universal inner kinds) universal [(inner, .compound [])])
    (hunpack : back.MakesEntity (Rule.unpacking native inner kinds) native base.entries)
    (hinput : q.input = .entity e) (htree : e.tree.tag = .compound content.entries)
    (hkinds : ∀ entry ∈ content.entries, kinds.get? entry.1 = some entry.2.kind) :
    ∃ (packed : Entity) (entries : Dict Tag),
      q.run.result = .ok ⟨.entity packed, none, false, false⟩ ∧ packed.id = universal ∧
      { back with input := .entity packed }.run.result =
        .ok ⟨.entity ⟨native, e.location, ⟨"", .compound entries.entries⟩⟩, none, false, false⟩ ∧
      ∀ key, entries.get? key = (content.get? key).or (base.get? key) := by
  let packed : Entity :=
    ⟨universal, e.location, ⟨"", .compound [(inner, .compound content.entries)]⟩⟩
  have hresult := run_onlyPaints hpack hinput Edit.isFor_of_mem_entriesAt fun f => by
    rw [htree]
    exact Rule.movers_onlyPaints hkinds [.atKey inner .compound] []
  rw [Paint.paint_entriesAt_beneath, ← Table.ofEntries,
    Table.ofEntries_of_sorted content.sorted] at hresult
  have hunpack' : { back with input := .entity packed }.MakesEntity
      (Rule.unpacking native inner kinds) native base.entries :=
    ⟨hunpack.rules, hunpack.extraInput, hunpack.prepopulate, hunpack.name, hunpack.template⟩
  have hresult' := run_onlyPaints hunpack' rfl Edit.isFor_of_mem_entriesAt fun f =>
    Rule.under_onlyPaints (Rule.movers_onlyPaints hkinds [] [.atKey inner .compound])
  rw [Paint.paint_entriesAt] at hresult'
  exact ⟨packed, base.extend content.entries, hresult, rfl, hresult',
    Dict.get?_extend_entries base content⟩

def cowVersion (platform : String) (id : RecordId) (base : List (String × Tag)) : VersionData :=
  { VersionData.ofMeta ⟨platform, ⟨1, 13, 2⟩, 0, .blockstate⟩ with
    entity := ⟨none, some ⟨.ofList [(id.space, .ofList
      [(id.base, ⟨∅, ∅, some ⟨id, "", .compound, .compound base⟩⟩)])], ∅, ∅⟩⟩ }

def nativeCow : RecordId := ⟨"minecraft", "cow"⟩

def universalCow : RecordId := ⟨"universal_minecraft", "cow"⟩

def cowKinds : Dict Kind := .ofList [("Age", .int), ("Brain", .compound), ("Leash", .intArray)]

def cowTree : Dict Tag :=
  .ofList [("Age", .int (-40)), ("Brain", .compound [("Age", .string "young")])]

def cowDefaults : Dict Tag := .ofList [("Age", .int 0), ("NoAI", .byte 0)]

def cow : Entity := ⟨nativeCow, .ofCoords ⟨1, 64, -3⟩, ⟨"", .compound cowTree.entries⟩⟩

def cowRequest (rules : List Rule) (target : VersionData) : Request where
  input := .entity cow
  specification := .empty
  rules := rules
  target := target
  forceBlockstate := true
  resources := ⟨∅, none⟩
  extraInput := none
  prepopulate := true
  location := none

def packCow : Request := cowRequest (Rule.packing universalCow "utags" cowKinds)
  (cowVersion "universal" universalCow [("utags", .compound [])])

def unpackCow : Request := cowRequest (Rule.unpacking nativeCow "utags" cowKinds)
  (cowVersion "java" nativeCow cowDefaults.entries)

theorem packCow_makesEntity : packCow.MakesEntity (Rule.packing universalCow "utags" cowKinds)
    universalCow [("utags", .compound [])] :=
  ⟨rfl, rfl, rfl, rfl, _, _, rfl, rfl⟩

theorem unpackCow_makesEntity : unpackCow.MakesEntity
    (Rule.unpacking nativeCow "utags" cowKinds) nativeCow cowDefaults.entries :=
  ⟨rfl, rfl, rfl, rfl, _, _, rfl, rfl⟩

/-- A young cow comes back at its age, over defaults that make it grown up. -/
theorem unpacking_packing_cow :
    packCow.MakesEntity (Rule.packing universalCow "utags" cowKinds) universalCow
      [("utags", .compound [])] ∧
    unpackCow.MakesEntity (Rule.unpacking nativeCow "utags" cowKinds) nativeCow
      cowDefaults.entries ∧
    packCow.input = .entity cow ∧ cow.tree.tag = .compound cowTree.entries ∧
    (∀ entry ∈ cowTree.entries, cowKinds.get? entry.1 = some entry.2.kind) ∧
    ∃ (packed : Entity) (entries : Dict Tag),
      packCow.run.result = .ok ⟨.entity packed, none, false, false⟩ ∧ packed.id = universalCow ∧
      { unpackCow with input := .entity packed }.run.result =
        .ok ⟨.entity ⟨nativeCow, cow.location, ⟨"", .compound entries.entries⟩⟩, none, false,
          false⟩ ∧
      ∀ key, entries.get? key = (cowTree.get? key).or (cowDefaults.get? key) :=
  ⟨packCow_makesEntity, unpackCow_makesEntity, rfl, rfl, by decide,
    unpacking_packing packCow_makesEntity unpackCow_makesEntity rfl rfl (by decide)⟩

end Request

end BlockConvert
