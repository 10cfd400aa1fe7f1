import BlockConvert.Proofs.Block.Layers
import BlockConvert.Proofs.Decimal.Spelling
import BlockConvert.Proofs.Snbt.RoundTrip

set_option autoImplicit false

/-!
# The text of a block tells the block

Nothing in a text is escaped outside quotes, yet two blocks with the same text are the same. Each
part of a text is cut off from what comes after it: a name space by a colon, a base name by a
bracket, a property name by an equals sign, and a value, whatever signs are inside it, by where the
reader of tags stops. So if two texts agree, with anything that may come after them, then their
first parts agree and so do the rests.
-/

namespace BlockConvert

variable {t u : Tag} {r s : List Char}

theorem Snbt.render_append_inj (ht : t.Throughout Tag.Printable) (hu : u.Throughout Tag.Printable)
    (hr : Ends r) (hs : Ends s) (h : render t ++ r = render u ++ s) : t = u ∧ r = s := by
  -- both are read with one bound, so that the two runs are on the same text
  let bound := (render t).length + (render u).length + 1
  obtain ⟨r', -, hread⟩ := yields_render (show (render t).length < bound by omega) r hr
  obtain ⟨s', -, hread'⟩ := yields_render (show (render u).length < bound by omega) s hs
  rw [reread_of_printable ht] at hread
  rw [reread_of_printable hu, ← h, hread] at hread'
  obtain ⟨rfl, -⟩ := Prod.mk.inj (Except.ok.inj hread')
  exact ⟨rfl, List.append_cancel_left h⟩

namespace Block

variable {e f : String × Tag} {es fs : List (String × Tag)} {p q : Properties} {b c : Block}
  {ls ms : List Block}

/-! ## Properties -/

/-- A property whose text can be cut off: its name has no equals sign and its value comes back. -/
structure DelimitedProperty (e : String × Tag) : Prop where
  name : '=' ∉ e.1.toList
  value : e.2.Throughout Tag.Printable

theorem propertyChars_append_inj (he : DelimitedProperty e) (hf : DelimitedProperty f)
    (hr : Snbt.Ends r) (hs : Snbt.Ends s)
    (h : propertyChars e ++ r = propertyChars f ++ s) : e = f ∧ r = s := by
  have hsplit := congrArg (Text.splitOnce '=') h
  simp only [propertyChars, List.append_assoc, List.cons_append, Text.splitOnce_append he.name,
    Text.splitOnce_append hf.name, Option.some.injEq, Prod.mk.injEq] at hsplit
  obtain ⟨hname, hrest⟩ := hsplit
  obtain ⟨hvalue, hrest⟩ := Snbt.render_append_inj he.value hf.value hr hs hrest
  exact ⟨Prod.ext (String.toList_injective hname) hvalue, hrest⟩

/-- What comes after a property: the further ones, the closing bracket and the rest. -/
def afterProperty (rest : List Char) : List (String × Tag) → List Char
  | [] => ']' :: rest
  | e :: es => ',' :: (propertyChars e ++ afterProperty rest es)

theorem joinWith_afterProperty (e : String × Tag) (es : List (String × Tag))
    (rest : List Char) : Text.joinWith ',' ((e :: es).map propertyChars) ++ ']' :: rest =
      propertyChars e ++ afterProperty rest es := by
  induction es generalizing e with
  | nil => rfl
  | cons next more ih =>
    have hnext := ih next
    rw [List.map_cons] at hnext
    simp only [List.map_cons, Text.joinWith, afterProperty, List.append_assoc,
      List.cons_append, hnext]

theorem ends_afterProperty (rest : List Char) (es : List (String × Tag)) :
    Snbt.Ends (afterProperty rest es) := by
  cases es <;> exact Snbt.ends_cons (by decide)

theorem afterProperty_inj (hes : ∀ e ∈ es, DelimitedProperty e)
    (hfs : ∀ f ∈ fs, DelimitedProperty f) (h : afterProperty r es = afterProperty s fs) :
    es = fs ∧ r = s := by
  induction es generalizing fs with
  | nil =>
    cases fs with
    | nil => exact ⟨rfl, (List.cons.inj h).2⟩
    | cons f fs => exact absurd (List.cons.inj h).1 (by decide)
  | cons e es ih =>
    cases fs with
    | nil => exact absurd (List.cons.inj h).1 (by decide)
    | cons f fs =>
      obtain ⟨he, hmore⟩ := List.forall_mem_cons.1 hes
      obtain ⟨hf, hmore'⟩ := List.forall_mem_cons.1 hfs
      obtain ⟨rfl, htail⟩ := propertyChars_append_inj he hf (ends_afterProperty r es)
        (ends_afterProperty s fs) (List.cons.inj h).2
      obtain ⟨rfl, rfl⟩ := ih hmore hmore' htail
      exact ⟨rfl, rfl⟩

/-! ## A block without its layers -/

def isBracket (c : Char) : Bool := c == '[' || c == '\x7b' || c == '\x7d'

/-- What comes after a block: nothing, or a brace of a layer. -/
def AfterBlock (rest : List Char) : Prop := ∀ c ∈ rest.head?, c = '\x7b' ∨ c = '\x7d'

theorem afterBlock_nil : AfterBlock [] := fun _ h => by cases h

theorem afterBlock_open (rest : List Char) : AfterBlock ('\x7b' :: rest) := fun _ h =>
  .inl (Option.some.inj h).symm

theorem afterBlock_close (rest : List Char) : AfterBlock ('\x7d' :: rest) := fun _ h =>
  .inr (Option.some.inj h).symm

theorem AfterBlock.ne_cons (h : AfterBlock r) (rest : List Char) : r ≠ '[' :: rest := by
  rintro rfl
  exact absurd (h '[' rfl) (by decide)

structure Delimited (b : Block) : Prop where
  space : ':' ∉ b.id.space.toList
  base : ∀ c ∈ b.id.base.toList, isBracket c = false
  properties : ∀ e ∈ b.properties.entries, DelimitedProperty e

theorem propertiesChars_cons {entries : List (String × Tag)} (h : p.entries = e :: entries)
    (rest : List Char) : propertiesChars p ++ rest =
      '[' :: (propertyChars e ++ afterProperty rest entries) := by
  have hne : p.entries ≠ [] := by simp [h]
  rw [← joinWith_afterProperty, propertiesChars_of_ne hne, h, List.cons_append,
    List.append_assoc, List.singleton_append]

theorem propertiesChars_append_inj (hp : ∀ e ∈ p.entries, DelimitedProperty e)
    (hq : ∀ e ∈ q.entries, DelimitedProperty e) (hr : AfterBlock r) (hs : AfterBlock s)
    (h : propertiesChars p ++ r = propertiesChars q ++ s) : p = q ∧ r = s := by
  cases hpe : p.entries with
  | nil =>
    rw [propertiesChars_nil hpe, List.nil_append] at h
    cases hqe : q.entries with
    | nil =>
      rw [propertiesChars_nil hqe, List.nil_append] at h
      exact ⟨Dict.eq_of_entries (hpe.trans hqe.symm), h⟩
    | cons f fs =>
      rw [propertiesChars_cons hqe] at h
      exact absurd h (hr.ne_cons _)
  | cons e es =>
    rw [propertiesChars_cons hpe] at h
    cases hqe : q.entries with
    | nil =>
      rw [propertiesChars_nil hqe, List.nil_append] at h
      exact absurd h.symm (hs.ne_cons _)
    | cons f fs =>
      rw [propertiesChars_cons hqe] at h
      rw [hpe] at hp
      rw [hqe] at hq
      -- the lists go on alike with a bracket and a comma in front
      have hlists : afterProperty r (e :: es) = afterProperty s (f :: fs) :=
        congrArg (List.cons ',') (List.cons.inj h).2
      obtain ⟨hentries, hrest⟩ := afterProperty_inj hp hq hlists
      exact ⟨Dict.eq_of_entries (hpe.trans (hentries.trans hqe.symm)), hrest⟩

theorem isBracket_propertiesChars (p : Properties) (hr : AfterBlock r) :
    ∀ c ∈ (propertiesChars p ++ r).head?, (!isBracket c) = false := by
  intro c hc
  cases hpe : p.entries with
  | nil =>
    rw [propertiesChars_nil hpe] at hc
    rcases hr c hc with rfl | rfl <;> rfl
  | cons e es =>
    rw [propertiesChars_cons hpe] at hc
    rw [← Option.some.inj hc]
    rfl

theorem baseChars_append_inj (hb : b.Delimited) (hc : c.Delimited) (hr : AfterBlock r)
    (hs : AfterBlock s) (h : b.baseChars ++ r = c.baseChars ++ s) : b.base = c.base ∧ r = s := by
  have hsplit := congrArg (Text.splitOnce ':') h
  simp only [baseChars_eq, List.append_assoc, List.cons_append, Text.splitOnce_append hb.space,
    Text.splitOnce_append hc.space, Option.some.injEq, Prod.mk.injEq] at hsplit
  obtain ⟨hspace, hrest⟩ := hsplit
  have hplain {b : Block} (hb : b.Delimited) :
      ∀ c ∈ b.id.base.toList, (!isBracket c) = true := fun c hc => by rw [hb.base c hc]; rfl
  obtain ⟨htake, hdrop⟩ := Decimal.takeWhile_until _ (hplain hb)
    (isBracket_propertiesChars b.properties hr)
  obtain ⟨htake', hdrop'⟩ := Decimal.takeWhile_until _ (hplain hc)
    (isBracket_propertiesChars c.properties hs)
  have hbase : b.id.base.toList = c.id.base.toList := by
    rw [← htake, ← htake', hrest]
  have hproperties : propertiesChars b.properties ++ r = propertiesChars c.properties ++ s := by
    rw [← hdrop, ← hdrop', hrest]
  obtain ⟨hsame, hrest⟩ := propertiesChars_append_inj hb.properties hc.properties hr hs hproperties
  have hid : b.id = c.id := congrArg₂ RecordId.mk (String.toList_injective hspace)
    (String.toList_injective hbase)
  exact ⟨by rw [base, base, hid, hsame], hrest⟩

/-! ## Layers -/

def layerChars (layer : Block) : List Char := '\x7b' :: (layer.baseChars ++ ['\x7d'])

theorem afterBlock_layers (ls : List Block) : AfterBlock (ls.flatMap layerChars) := by
  cases ls with
  | nil => exact afterBlock_nil
  | cons l ls => exact afterBlock_open _

theorem layers_inj (hls : ∀ l ∈ ls, l.Delimited) (hms : ∀ m ∈ ms, m.Delimited)
    (h : ls.flatMap layerChars = ms.flatMap layerChars) : ls.map base = ms.map base := by
  induction ls generalizing ms with
  | nil =>
    cases ms with
    | nil => rfl
    | cons m ms => exact absurd h nofun
  | cons l ls ih =>
    cases ms with
    | nil => exact absurd h nofun
    | cons m ms =>
      obtain ⟨hl, hmore⟩ := List.forall_mem_cons.1 hls
      obtain ⟨hm, hmore'⟩ := List.forall_mem_cons.1 hms
      simp only [List.flatMap_cons, layerChars, List.cons_append, List.append_assoc,
        List.nil_append, List.cons.injEq, true_and] at h
      obtain ⟨hbase, htail⟩ :=
        baseChars_append_inj hl hm (afterBlock_close _) (afterBlock_close _) h
      rw [List.map_cons, List.map_cons, hbase, ih hmore hmore' (List.cons.inj htail).2]

theorem IsFlat.map_base (h : b.IsFlat) : b.layers.map base = b.layers := by
  refine (List.map_congr_left fun l hl => ?_).trans (List.map_id _)
  obtain ⟨id, properties, layers⟩ := l
  cases h _ hl
  rfl

/-- A block whose layers, itself the first of them, can be cut off and have no layers of their own.
The latter is so of every block that can be had, see `Made.isFlat`. -/
structure Separable (b : Block) : Prop where
  flat : b.IsFlat
  layers : ∀ l ∈ b.flatten, l.Delimited

/-- Blocks are told apart by their texts. -/
theorem blockstate_eq_iff (hb : b.Separable) (hc : c.Separable) :
    b.blockstate = c.blockstate ↔ b = c := by
  refine ⟨fun h => ?_, congrArg blockstate⟩
  have hchars : b.base.baseChars ++ b.layers.flatMap layerChars =
      c.base.baseChars ++ c.layers.flatMap layerChars := String.ofList_injective h
  obtain ⟨hbase, hlayers⟩ := List.forall_mem_cons.1 hb.layers
  obtain ⟨hbase', hlayers'⟩ := List.forall_mem_cons.1 hc.layers
  obtain ⟨hsame, hrest⟩ := baseChars_append_inj hbase hbase' (afterBlock_layers b.layers)
    (afterBlock_layers c.layers) hchars
  have hstack : b.layers = c.layers := by
    rw [← hb.flat.map_base, ← hc.flat.map_base]
    exact layers_inj hlayers hlayers' hrest
  obtain ⟨id, properties, layers⟩ := b
  obtain ⟨id', properties', layers'⟩ := c
  obtain ⟨rfl, rfl, -⟩ := Block.mk.inj hsame
  cases hstack
  rfl

/-- A block with the text of a layer inside a property, and with braces inside its layer. -/
def nestedText : Block :=
  (new ⟨"a", "b"⟩ ⟨[("k", .string "\"]\x7bc:d\x7d")], List.pairwise_singleton _ _⟩).withLayer
    (new ⟨"c", "d"⟩ ⟨[("]", .compound [("\x7d", .list none [])])], List.pairwise_singleton _ _⟩)

/-- The layers that the text inside `nestedText` looks like. -/
def nestedLayers : Block :=
  (new ⟨"a", "b"⟩ ⟨[("k", .string "\"")], List.pairwise_singleton _ _⟩).withLayers
    [new ⟨"c", "d"⟩ ∅, new ⟨"c", "d"⟩ ∅]

theorem nestedText_separable : nestedText.Separable := by
  have hlist : (Tag.list none []).Throughout Tag.Printable :=
    Tag.throughout_of_childless rfl ⟨⟨by decide, by decide⟩, fun _ => rfl⟩
  have hcompound : (Tag.compound [("\x7d", .list none [])]).Throughout Tag.Printable :=
    Tag.throughout_compound (List.pairwise_singleton _ _) (List.forall_mem_singleton.2 hlist)
  have hstring : (Tag.string "\"]\x7bc:d\x7d").Throughout Tag.Printable :=
    Tag.throughout_of_childless rfl trivial
  refine ⟨((Made.new _ _).withLayer (.new _ _)).isFlat, List.forall_mem_cons.2 ⟨?_,
    List.forall_mem_singleton.2 ?_⟩⟩
  · exact ⟨by decide, List.forall_mem_singleton.2 rfl,
      List.forall_mem_singleton.2 ⟨by decide, hstring⟩⟩
  · exact ⟨by decide, List.forall_mem_singleton.2 rfl,
      List.forall_mem_singleton.2 ⟨by decide, hcompound⟩⟩

theorem nestedLayers_separable : nestedLayers.Separable := by
  have hstring : (Tag.string "\"").Throughout Tag.Printable :=
    Tag.throughout_of_childless rfl trivial
  have hplain : (new ⟨"c", "d"⟩ ∅).Delimited :=
    ⟨by decide, List.forall_mem_singleton.2 rfl, nofun⟩
  have hmade : nestedLayers.Made := (Made.new _ _).withLayers
    (List.forall_mem_cons.2 ⟨.new _ _, List.forall_mem_singleton.2 (.new _ _)⟩)
  have hmarked : nestedLayers.base.Delimited := ⟨by decide, List.forall_mem_singleton.2 rfl,
    List.forall_mem_singleton.2 ⟨by decide, hstring⟩⟩
  exact ⟨hmade.isFlat, List.forall_mem_cons.2 ⟨hmarked,
    List.forall_mem_cons.2 ⟨hplain, List.forall_mem_singleton.2 hplain⟩⟩⟩

theorem blockstate_ne_nested : nestedText.Separable ∧ nestedLayers.Separable ∧
    nestedText.blockstate ≠ nestedLayers.blockstate :=
  ⟨nestedText_separable, nestedLayers_separable, fun h =>
    absurd ((blockstate_eq_iff nestedText_separable nestedLayers_separable).1 h) (by decide)⟩

end Block

end BlockConvert
