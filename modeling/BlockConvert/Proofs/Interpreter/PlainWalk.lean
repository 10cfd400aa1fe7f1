import BlockConvert.Proofs.Interpreter.Growth
import BlockConvert.Proofs.Paint.Checked
import Mathlib.Tactic.Choose

set_option autoImplicit false

/-!
# Walks that only carry

A node without rules of its own takes a tag apart: its walk goes down where it has nodes and carries
what is left, each tag to the place where it was. Painted from nothing, what the walk has carried is
the tag again.
-/

namespace BlockConvert

namespace Action

/-- In the frame the action ends well and adds just these edits. -/
def Adds (a : Action) (f : Frame) (es : List Edit) : Prop :=
  ∀ s, (a f s).failure = none ∧ (a f s).state.edits = s.edits ++ es

variable {a b : Action} {f : Frame} {es fs : List Edit}

theorem skip_adds : Adds skip f [] := fun s => ⟨rfl, (List.append_nil s.edits).symm⟩

theorem notify_adds (n : Notice) : Adds (notify n) f [] :=
  fun s => ⟨rfl, (List.append_nil s.edits).symm⟩

theorem Adds.andThen (ha : Adds a f es) (hb : Adds b f fs) : Adds (a.andThen b) f (es ++ fs) := by
  intro s
  obtain ⟨hok, hedits⟩ := ha s
  obtain ⟨hok', hedits'⟩ := hb (a f s).state
  rw [andThen_failure hok, andThen_state hok, hedits', hedits, List.append_assoc]
  exact ⟨hok', rfl⟩

theorem sequence_adds {α : Type} {xs : List α} {act : α → Action} {es : α → List Edit}
    (h : ∀ x ∈ xs, Adds (act x) f (es x)) : Adds (sequence (xs.map act)) f (xs.flatMap es) := by
  induction xs with
  | nil => exact skip_adds
  | cons x rest ih =>
    exact (h x (by simp)).andThen (ih fun y hy => h y (List.mem_cons_of_mem _ hy))

theorem carry_adds {p : Path} {key : PathKey} {u : Tag}
    (hcursor : f.cursor = some ⟨p ++ [⟨key, u.kind⟩], u⟩) :
    Adds (carry .same) f [.new p key u] := by
  intro s
  have hedit : Carry.same.edit ⟨p ++ [⟨key, u.kind⟩], u⟩ = .ok (.new p key u) := by
    simp [Carry.edit, Carry.same, Tag.cast?_self, Edit.new]
  simp only [carry, beyondRecord_apply, atCursor, hcursor, hedit]
  exact ⟨rfl, rfl⟩

end Action

namespace WalkNode

def Admits : WalkNode → Kind → Bool
  | .mk kind _ _ _ _ _, k => kind.all (· = k)

inductive Plain : WalkNode → Prop
  | mk {kind : Option Kind} {keys indices : List (String × WalkNode)}
      (hkeys : ∀ key n, (key, n) ∈ keys → Plain n)
      (hindices : ∀ index n, (index, n) ∈ indices → Plain n) :
      Plain (.mk kind [] keys indices none none)

/-- A walk with the node through the tag comes to apply a node to a tag inside. -/
inductive Applies : WalkNode → Tag → WalkNode → Tag → Prop
  | child {kind : Option Kind} {rules : List Rule} {keys indices : List (String × WalkNode)}
      {childDefault selfDefault : Option (List Rule)} {t u : Tag} {key : PathKey} {m : WalkNode}
      (hkind : kind.all (· = t.kind) = true) (hchild : (key, u) ∈ t.children)
      (hnode : Rule.childNode keys indices key = some m) :
      Applies (.mk kind rules keys indices childDefault selfDefault) t m u
  | deeper {kind : Option Kind} {rules : List Rule} {keys indices : List (String × WalkNode)}
      {childDefault selfDefault : Option (List Rule)} {t u v : Tag} {key : PathKey}
      {m n : WalkNode} (hkind : kind.all (· = t.kind) = true) (hchild : (key, u) ∈ t.children)
      (hnode : Rule.childNode keys indices key = some m) (h : Applies m u n v) :
      Applies (.mk kind rules keys indices childDefault selfDefault) t n v

/-- Below its root, the walk takes apart only tags that have something inside. -/
def MeetsChildren (n : WalkNode) (t : Tag) : Prop :=
  ∀ m u, Applies n t m u → m.Admits u.kind = true → u.children ≠ []

theorem meetsChildren_of_children {kind : Option Kind} {rules : List Rule}
    {keys indices : List (String × WalkNode)} {childDefault selfDefault : Option (List Rule)}
    {t : Tag} (h : ∀ key u m, (key, u) ∈ t.children → Rule.childNode keys indices key = some m →
      m.Admits u.kind = true → u.children ≠ [] ∧ m.MeetsChildren u) :
    (WalkNode.mk kind rules keys indices childDefault selfDefault).MeetsChildren t := by
  intro m u happlies hadmits
  cases happlies with
  | child _ hchild hnode => exact (h _ u m hchild hnode hadmits).1
  | @deeper _ _ _ _ _ _ _ v _ key l _ _ hchild hnode hdeeper =>
    have hinner : l.Admits v.kind = true := by cases hdeeper <;> assumption
    exact (h key v l hchild hnode hinner).2 m u hdeeper hadmits

end WalkNode

namespace Rule

open BlockConvert.Action BlockConvert.Paint

variable {r : Resources} {n : WalkNode} {t : Tag} {f : Frame}

/-- The walk with the node, wherever the tag stands, adds edits that paint the tag from nothing. -/
def TakesApart (r : Resources) (n : WalkNode) (t : Tag) (es : List Edit) : Prop :=
  paint (Tag.empty t.kind) es = t ∧ (∀ e ∈ es, e.isFor "" .compound = true ∧ e.Fits) ∧
    ∀ (f : Frame) p, Adds (walkNode r n ⟨p, t⟩) (f.positioned ⟨p, t⟩) (es.map (Edit.beneath p))

theorem walkNode_adds_mistyped (hplain : n.Plain) (hkind : n.Admits t.kind = false) (p : Path)
    (key : PathKey) (f : Frame) :
    Adds (walkNode r n ⟨p ++ [⟨key, t.kind⟩], t⟩) (f.positioned ⟨p ++ [⟨key, t.kind⟩], t⟩)
      [.new p key t] := by
  cases hplain with
  | @mk kind keys indices _ _ =>
    have hother : ¬kind.all (· = t.kind) = true := by simpa [WalkNode.Admits] using hkind
    rw [walkNode_eq_visitChild, if_neg hother, Option.map_none, Option.getD_none, carryMistyped,
      if_neg (by simp)]
    exact skip_adds.andThen (carry_adds rfl)

/-- The visit of a child, wherever the tag around it stands, adds edits that restore the child. -/
structure Visits (visit : PathKey → Cursor → Action) (key : PathKey) (u : Tag) (es : List Edit) :
    Prop where
  restores : Restores key u es
  isFor : ∀ e ∈ es, e.isFor "" .compound = true ∧ e.Fits
  adds : ∀ (f : Frame) (p : Path), Adds (visit key ⟨p ++ [⟨key, u.kind⟩], u⟩)
    (f.positioned ⟨p ++ [⟨key, u.kind⟩], u⟩) (es.map (Edit.beneath p))

variable {visit : PathKey → Cursor → Action} {key : PathKey} {u : Tag}

theorem visits_whole (hfits : key.Fits)
    (h : ∀ (f : Frame) (p : Path), Adds (visit key ⟨p ++ [⟨key, u.kind⟩], u⟩)
      (f.positioned ⟨p ++ [⟨key, u.kind⟩], u⟩) [.new p key u]) :
    Visits visit key u [.new [] key u] := by
  have hfor : (Edit.new [] key u).isFor "" .compound = true ∧ (Edit.new [] key u).Fits :=
    ⟨rfl, List.forall_mem_singleton.2 hfits⟩
  refine ⟨.whole, List.forall_mem_singleton.2 hfor, fun f p => ?_⟩
  have hbeneath : [Edit.new [] key u].map (Edit.beneath p) = [.new p key u] := by
    simp [Edit.new, Edit.beneath]
  rw [hbeneath]
  exact h f p

theorem TakesApart.visits {es : List Edit} (h : TakesApart r n u es) (hfits : key.Fits)
    (hchildren : u.children ≠ []) :
    Visits (fun _ => walkNode r n) key u (es.map (Edit.beneath [⟨key, u.kind⟩])) := by
  obtain ⟨hpaint, hfor, hadds⟩ := h
  refine ⟨.within hchildren hpaint, fun e he => ?_, fun f p => ?_⟩
  · obtain ⟨d, hd, rfl⟩ := List.mem_map.1 he
    obtain ⟨hroot, hinner⟩ := hfor d hd
    exact ⟨hroot, List.forall_mem_cons.2 ⟨hfits, hinner⟩⟩
  · have hbeneath := hadds f (p ++ [⟨key, u.kind⟩])
    simpa [List.map_map, Function.comp_def, Edit.beneath_beneath] using hbeneath

theorem visitChild_visits {keys indices : List (String × WalkNode)} (hfits : key.Fits)
    (hplain : ∀ m, childNode keys indices key = some m → m.Plain)
    (htakes : ∀ m, childNode keys indices key = some m → m.Admits u.kind = true →
      u.children ≠ [] ∧ ∃ es, TakesApart r m u es) :
    ∃ es, Visits (visitChild r keys indices none) key u es := by
  cases hnode : childNode keys indices key with
  | none =>
    refine ⟨_, visits_whole hfits fun f p => ?_⟩
    simp only [visitChild, hnode, Option.map_none, Option.getD_none, carryUnaccounted]
    exact (notify_adds _).andThen (carry_adds rfl)
  | some m =>
    have hvisit : ∀ c, visitChild r keys indices none key c = walkNode r m c := by
      intro c
      simp only [visitChild, hnode]
    cases hadmits : m.Admits u.kind with
    | false =>
      refine ⟨_, visits_whole hfits fun f p => ?_⟩
      rw [hvisit]
      exact walkNode_adds_mistyped (hplain m hnode) hadmits p key f
    | true =>
      obtain ⟨hchildren, es, hes⟩ := htakes m hnode hadmits
      have hvisits : Visits (fun _ => walkNode r m) key u _ := hes.visits hfits hchildren
      obtain ⟨hrestores, hfor, hadds⟩ := hvisits
      refine ⟨_, hrestores, hfor, fun f p => ?_⟩
      rw [hvisit]
      exact hadds f p

/-- A tag is taken apart by the visits of its children. -/
theorem takesApart_of_visits {kind : Option Kind} {keys indices : List (String × WalkNode)}
    (hkind : kind.all (· = t.kind) = true) (horder : t.InOrder) (hcount : t.Counted)
    (hfull : t.kind = .compound ∨ t.children ≠ [])
    (h : ∀ key u, (key, u) ∈ t.children →
      ∃ es, Visits (visitChild r keys indices none) key u es) :
    ∃ es, TakesApart r (.mk kind [] keys indices none none) t es := by
  choose! es hes using h
  refine ⟨editsFor es t.children, ?_, ?_, fun f p => ?_⟩
  · exact paint_children horder hcount hfull fun key u hchild => (hes key u hchild).restores
  · intro e he
    obtain ⟨key, u, hchild, hmem⟩ := mem_editsFor he
    exact (hes key u hchild).isFor e hmem
  · have hchildren : Adds (visitChildren ⟨p, t⟩ (visitChild r keys indices none))
        (f.positioned ⟨p, t⟩) (t.children.flatMap fun c => (es c.1 c.2).map (Edit.beneath p)) :=
      sequence_adds fun c hc => (hes c.1 c.2 hc).adds f p
    have hmap : (editsFor es t.children).map (Edit.beneath p) =
        t.children.flatMap fun c => (es c.1 c.2).map (Edit.beneath p) := List.map_flatMap
    rw [walkNode_eq_visitChild, if_pos hkind, hmap]
    exact skip_adds.andThen hchildren

theorem walkNode_takesApart (hplain : n.Plain) (hkind : n.Admits t.kind = true)
    (hwell : t.WellFormed) (hcount : t.Throughout Tag.Counted)
    (hfull : t.kind = .compound ∨ t.children ≠ []) (hmeets : n.MeetsChildren t) :
    ∃ es, TakesApart r n t es := by
  induction hplain generalizing t with
  | @mk kind keys indices hkeys hindices ihkeys ihindices =>
    refine takesApart_of_visits hkind hwell.here hcount.here hfull fun key u hchild => ?_
    refine visitChild_visits (hcount.here.fits hchild) (fun m hnode => ?_) fun m hnode hadmits => ?_
    · rcases childNode_mem hnode with ⟨k, hk⟩ | ⟨i, hi⟩
      · exact hkeys k m hk
      · exact hindices i m hi
    · have hchildren : u.children ≠ [] := hmeets m u (.child hkind hchild hnode) hadmits
      have hinner : m.MeetsChildren u := fun m' u' happlies =>
        hmeets m' u' (.deeper hkind hchild hnode happlies)
      refine ⟨hchildren, ?_⟩
      rcases childNode_mem hnode with ⟨k, hk⟩ | ⟨i, hi⟩
      · exact ihkeys k m hk hadmits (hwell.child hchild) (hcount.child hchild) (.inr hchildren)
          hinner
      · exact ihindices i m hi hadmits (hwell.child hchild) (hcount.child hchild) (.inr hchildren)
          hinner

/-- A walk that only carries takes the tree apart, and the tree that is built from what it carries
is the same again. -/
theorem build_plainWalk (r : Resources) (n : WalkNode) (entries : List (String × Tag)) (f : Frame)
    (s : State) (hplain : n.Plain) (hroot : n.Admits .compound = true)
    (hwell : (Tag.compound entries).WellFormed)
    (hcount : (Tag.compound entries).Throughout Tag.Counted)
    (hmeets : n.MeetsChildren (.compound entries)) (htree : f.tree = some (.compound entries))
    (hcursor : f.cursor = none) (hedits : s.edits = []) :
    (run r (.walk none n) f s).failure = none ∧
      (build "" .compound (run r (.walk none n) f s).state.edits none).finishes = true ∧
      (build "" .compound (run r (.walk none n) f s).state.edits none).tree =
        ⟨"", .compound entries⟩ := by
  obtain ⟨es, hpaint, hfor, hadds⟩ :=
    walkNode_takesApart (r := r) (t := .compound entries) hplain hroot hwell hcount (.inl rfl)
      hmeets
  have hrun : run r (.walk none n) f s =
      walkNode r n ⟨[], .compound entries⟩ (f.positioned ⟨[], .compound entries⟩)
        s.uncacheable := by
    simp [run, beyondRecord_apply, atPath, htree, hcursor]
  obtain ⟨hok, hadded⟩ := hadds f [] s.uncacheable
  rw [hrun]
  refine ⟨hok, ?_⟩
  have hall : (walkNode r n ⟨[], .compound entries⟩ (f.positioned ⟨[], .compound entries⟩)
      s.uncacheable).state.edits = es := by
    rw [hadded, show s.uncacheable.edits = [] from hedits, List.nil_append]
    exact List.map_id'' Edit.beneath_nil es
  rw [hall, tag_build, List.filter_eq_self.2 fun e he => (hfor e he).1]
  exact ⟨finishes_of_fits _ _ _ fun e he => (hfor e he).2, congrArg (NamedTag.mk "") hpaint⟩

def bare (kind : Option Kind) (keys indices : List (String × WalkNode)) : WalkNode :=
  .mk kind [] keys indices none none

def shelfNode : WalkNode :=
  bare none [("Items", bare (some .list) [] [("1", bare none [] [])]),
    ("Lock", bare (some .int) [] []), ("Marks", bare (some .intArray) [] [])] []

def shelf : List (String × Tag) :=
  [("Items", .list (some .compound) [.compound [("id", .string "stone")],
      .compound [("id", .string "dirt")]]),
    ("Lock", .string "key"), ("Marks", .intArray [3, 4])]

def atShelf : Frame :=
  .start (.block ⟨⟨"minecraft", "shelf"⟩, ∅, []⟩) (some (.compound shelf)) .origin

theorem plain_bare {kind : Option Kind} {keys indices : List (String × WalkNode)}
    (hkeys : ∀ e ∈ keys, e.2.Plain) (hindices : ∀ e ∈ indices, e.2.Plain) :
    (bare kind keys indices).Plain :=
  .mk (fun _ _ h => hkeys _ h) fun _ _ h => hindices _ h

theorem shelfNode_plain : shelfNode.Plain := by
  have hbare (kind : Option Kind) : (bare kind [] []).Plain := plain_bare (by simp) (by simp)
  have hitems : (bare (some .list) [] [("1", bare none [] [])]).Plain :=
    plain_bare (by simp) (by simpa using hbare none)
  exact plain_bare (by simp [hbare, hitems]) (by simp)

theorem shelf_throughout : (Tag.compound shelf).Throughout fun t => t.InOrder ∧ t.Counted := by
  have hitem (id : String) : (Tag.compound [("id", .string id)]).Throughout
      fun t => t.InOrder ∧ t.Counted :=
    Tag.throughout_compound
      ⟨by simp [Tag.InOrder, Table.Sorted], show 1 < UInt64.size by decide⟩
      (by simpa using Tag.throughout_of_childless rfl ⟨trivial, Tag.counted_of_childless rfl⟩)
  have hsorted : Table.Sorted shelf := by
    unfold Table.Sorted shelf
    decide
  refine Tag.throughout_compound ⟨hsorted, by decide⟩ fun e he => ?_
  simp only [shelf, List.mem_cons, List.not_mem_nil, or_false] at he
  rcases he with rfl | rfl | rfl
  · refine Tag.throughout_list
      ⟨by simp [Tag.InOrder, TypedList.Homogeneous, Tag.kind], by decide⟩ ?_
    exact List.forall_mem_cons.2 ⟨hitem "stone", List.forall_mem_singleton.2 (hitem "dirt")⟩
  · exact Tag.throughout_of_childless rfl ⟨trivial, by decide⟩
  · refine Tag.throughout_of_atoms ⟨trivial, by decide⟩ fun key u hchild => ?_
    obtain ⟨_, -, heq⟩ := List.mem_map.1 hchild
    cases heq
    exact ⟨rfl, trivial, Tag.counted_of_childless rfl⟩

theorem shelf_wellFormed : (Tag.compound shelf).WellFormed :=
  shelf_throughout.mono fun _ h => h.1

theorem shelf_counted : (Tag.compound shelf).Throughout Tag.Counted :=
  shelf_throughout.mono fun _ h => h.2

theorem bare_meetsChildren (kind : Option Kind) (t : Tag) : (bare kind [] []).MeetsChildren t := by
  refine WalkNode.meetsChildren_of_children fun key u m _ hnode _ => ?_
  cases key <;> contradiction

theorem shelfNode_meetsChildren : shelfNode.MeetsChildren (.compound shelf) := by
  refine WalkNode.meetsChildren_of_children fun key u m hchild hnode hadmits => ?_
  simp only [shelf, Tag.children, List.map_cons, List.map_nil, List.mem_cons, List.not_mem_nil,
    or_false, Prod.mk.injEq] at hchild
  rcases hchild with ⟨rfl, rfl⟩ | ⟨rfl, rfl⟩ | ⟨rfl, rfl⟩
  · cases hnode
    refine ⟨by simp [Tag.children], WalkNode.meetsChildren_of_children ?_⟩
    intro key u m hchild hnode hadmits
    obtain ⟨⟨v, i⟩, hmem, heq⟩ := List.mem_map.1 hchild
    cases heq
    have hitem := List.fst_mem_of_mem_zipIdx hmem
    simp only [List.mem_cons, List.not_mem_nil, or_false] at hitem
    have hnodes := childNode_mem hnode
    simp only [List.not_mem_nil, exists_false, false_or, List.mem_singleton,
      Prod.mk.injEq] at hnodes
    obtain ⟨_, -, rfl⟩ := hnodes
    refine ⟨?_, bare_meetsChildren _ _⟩
    rcases hitem with rfl | rfl <;> simp [Tag.children]
  · cases hnode
    contradiction
  · cases hnode
    exact ⟨by simp [Tag.children], bare_meetsChildren _ _⟩

theorem build_plainWalk_shelf :
    shelfNode.Plain ∧ shelfNode.Admits .compound = true ∧ (Tag.compound shelf).WellFormed ∧
    (Tag.compound shelf).Throughout Tag.Counted ∧ shelfNode.MeetsChildren (.compound shelf) ∧
    atShelf.tree = some (.compound shelf) ∧ atShelf.cursor = none ∧ State.fresh.edits = [] ∧
    (run ⟨∅, none⟩ (.walk none shelfNode) atShelf .fresh).failure = none ∧
    (build "" .compound (run ⟨∅, none⟩ (.walk none shelfNode) atShelf .fresh).state.edits
      none).finishes = true ∧
    (build "" .compound (run ⟨∅, none⟩ (.walk none shelfNode) atShelf .fresh).state.edits
      none).tree = ⟨"", .compound shelf⟩ :=
  ⟨shelfNode_plain, rfl, shelf_wellFormed, shelf_counted, shelfNode_meetsChildren, rfl, rfl, rfl,
    build_plainWalk ⟨∅, none⟩ shelfNode shelf atShelf .fresh shelfNode_plain rfl
      shelf_wellFormed shelf_counted shelfNode_meetsChildren rfl rfl rfl⟩

end Rule

end BlockConvert
