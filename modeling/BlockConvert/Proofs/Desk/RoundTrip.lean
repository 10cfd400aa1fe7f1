import BlockConvert.Proofs.Conversion.Respelling
import BlockConvert.Proofs.Desk.Reuse

set_option autoImplicit false

/-!
# There and back

A block whose properties are carried or respelled one to one on the way to the universal form comes
back as it was, whatever the desk has served before: a kept result for a block may stand at another
place, but the block in it is the same.
-/

namespace BlockConvert

/-- Blocks of one name become universal blocks of one name, and are made of them again, by rules
that carry or respell their properties, and no default adds another property. -/
structure Converters.Respell (c : Converters) (forceBlockstate : Bool) (native universal : RecordId)
    (kept : Dict (List Tag)) (ms back : List Respelling) : Prop where
  oneToOne : OneToOne kept ms
  reversed : back.Perm (ms.map Respelling.flip)
  nativeName : RecordId.ofText? native.text = some native
  universalName : RecordId.ofText? universal.text = some universal
  toUniversal : c.version.block.toUniversal (c.version.formatKey forceBlockstate) native =
    .ok (Rule.respelling universal kept ms)
  fromUniversal : c.version.block.fromUniversal (c.version.formatKey forceBlockstate) universal =
    .ok (Rule.respelling native kept back)
  nativeDefaults : ∃ spec,
    c.version.block.specification (c.version.formatKey forceBlockstate) native = .ok spec ∧
      ∀ key v, spec.defaults.get? key = some v → Concerns kept ms key
  universalDefaults : ∃ spec,
    c.universal.block.specification .blockstate universal = .ok spec ∧
      ∀ key v, spec.defaults.get? key = some v → Concerns kept (ms.map Respelling.flip) key

namespace BlockCall

/-- A call for a block on its own, without its block entity and without access to other blocks. -/
def alone (direction : Direction) (b : Block) (forceBlockstate : Bool) (place : Option Coords) :
    BlockCall := ⟨direction, b, none, forceBlockstate, none, place⟩

variable {c : Converters} {force : Bool} {native universal : RecordId} {kept : Dict (List Tag)}
  {ms back : List Respelling} {b : Block}

theorem toUniversal_respells (h : c.Respell force native universal kept ms back)
    (hid : b.id = native) (hcovered : Covered kept ms b.properties) (place : Option Coords) :
    ∃ route t qs, (alone .toUniversal b force place).route c = .ok route ∧
      ((alone .toUniversal b force place).request c route).run.result = .ok t ∧
      t.Yields (.new universal qs) ∧ Respells kept ms b.properties qs := by
  obtain ⟨nativeSpec, hnative, -⟩ := h.nativeDefaults
  obtain ⟨spec, hspec, hdefaults⟩ := h.universalDefaults
  let route : Route := ⟨nativeSpec, Rule.respelling universal kept ms, c.universal, true⟩
  have hroute : (alone .toUniversal b force place).route c = .ok route := by
    simp only [BlockCall.route, alone, Converters.route, Converters.database, hid, hnative,
      h.toUniversal]
    rfl
  obtain ⟨t, qs, hrun, hyields, hrespells⟩ :=
    Request.run_respelling (q := (alone .toUniversal b force place).request c route) rfl rfl rfl
      rfl h.universalName hspec hdefaults h.oneToOne hcovered
  exact ⟨route, t, qs, hroute, hrun, hyields, hrespells⟩

theorem fromUniversal_respells (h : c.Respell force native universal kept ms back)
    (hid : b.id = universal) (hcovered : Covered kept back b.properties) (place : Option Coords) :
    ∃ route t qs, (alone .fromUniversal b force place).route c = .ok route ∧
      ((alone .fromUniversal b force place).request c route).run.result = .ok t ∧
      t.Yields (.new native qs) ∧ Respells kept back b.properties qs := by
  obtain ⟨spec, hspec, hdefaults⟩ := h.nativeDefaults
  obtain ⟨universalSpec, huniversal, -⟩ := h.universalDefaults
  let route : Route := ⟨universalSpec, Rule.respelling native kept back, c.version, force⟩
  have hroute : (alone .fromUniversal b force place).route c = .ok route := by
    simp only [BlockCall.route, alone, Converters.route, Converters.database, hid, huniversal,
      h.fromUniversal]
    rfl
  have hback : (back.map Respelling.flip).Perm ms := by
    simpa only [Respelling.map_flip_map_flip] using h.reversed.map Respelling.flip
  obtain ⟨t, qs, hrun, hyields, hrespells⟩ :=
    Request.run_respelling (q := (alone .fromUniversal b force place).request c route) rfl rfl rfl
      rfl h.nativeName hspec (fun key v hv => (hdefaults key v hv).perm hback)
      (h.oneToOne.flip.perm h.reversed) hcovered
  exact ⟨route, t, qs, hroute, hrun, hyields, hrespells⟩

end BlockCall

theorem Conversion.yields_of_relocate {t : Conversion} {place : Coords} {b : Block}
    (h : (t.relocate place).Yields b) : t.Yields b := by
  obtain ⟨output, extra, needed, cacheable⟩ := t
  cases output with
  | block _ => exact ⟨h.output, h.extraNeeded, h.cacheable⟩
  | entity _ => exact absurd h.output nofun

namespace Desk

variable {c : Converters} {past past' : List BlockCall} {d d' : Desk} {q : BlockCall}
  {route : Route} {t : Conversion} {b : Block}

theorem stored_eq_some {key : MemoKey} (h : stored c past key = some t) :
    ∃ p : BlockCall, p.memoKey = key ∧ p.outcome c = t ∧ t.cacheable = true := by
  obtain ⟨p, hfind, rfl⟩ := Option.map_eq_some_iff.1 h
  have hfit := List.find?_some hfind
  simp only [Bool.and_eq_true, decide_eq_true_eq] at hfit
  exact ⟨p, hfit.1.2, rfl, hfit.2⟩

/-- Every answer to a call for a block on its own gives the block that the conversion yields, also
one that was kept from an earlier call. -/
theorem serveBlock_yields (hd : Remembers c past d) (n : Counters) (hlookup : q.lookup = none)
    (hroute : q.route c = .ok route) (hresult : (q.request c route).run.result = .ok t)
    (hyields : t.Yields b) : (serveBlock c q d n).conversion.Yields b := by
  have hown : q.outcome c = t := BlockCall.outcome_of_result hroute hresult
  rw [(serveBlock_step hd q n).1, resultAfter]
  split
  · cases hstored : stored c past q.memoKey with
    | none => exact hown ▸ hyields
    | some t' =>
      obtain ⟨p, hkey, rfl, hcacheable⟩ := stored_eq_some hstored
      obtain ⟨route', hroute', hresult'⟩ := BlockCall.outcome_of_cacheable hcacheable
      obtain rfl : route = route' :=
        Except.ok.inj ((hroute.symm.trans (BlockCall.route_of_memoKey hkey)).trans hroute')
      have hreadable : (q.request c route).OriginReadable := by
        intro _ _ look hlook
        exact absurd (hlookup.symm.trans hlook) (by simp)
      have hmoved := Request.result_of_cacheable (BlockCall.sameQuestion_of_memoKey hkey route)
        hresult' hcacheable hreadable
      exact Conversion.yields_of_relocate (Except.ok.inj (hmoved.symm.trans hresult) ▸ hyields)
  · exact hown ▸ hyields

variable {force : Bool} {native universal : RecordId} {kept : Dict (List Tag)}
  {ms back : List Respelling}

/-- A block whose properties are carried or respelled one to one comes back from the universal form
as it was, and neither result lacks data or depends on anything but the block. -/
theorem fromUniversal_toUniversal (h : c.Respell force native universal kept ms back)
    (hid : b.id = native) (hlayers : b.layers = []) (hcovered : Covered kept ms b.properties)
    (hd : Remembers c past d) (hd' : Remembers c past' d') (n n' : Counters)
    (place place' : Option Coords) :
    ∃ u, u.id = universal ∧
      (serveBlock c (.alone .toUniversal b force place) d n).conversion.Yields u ∧
      (serveBlock c (.alone .fromUniversal u force place') d' n').conversion.Yields b := by
  obtain ⟨route, t, qs, hroute, hresult, hyields, hrespells⟩ :=
    BlockCall.toUniversal_respells h hid hcovered place
  have hback : Respells kept back qs b.properties := hrespells.flip.perm h.reversed
  obtain ⟨route', t', ps, hroute', hresult', hyields', hrespells'⟩ :=
    BlockCall.fromUniversal_respells (b := .new universal qs) h rfl hback.covered place'
  have hsame : Block.new native ps = b := by
    rw [hrespells'.unique (h.oneToOne.flip.perm h.reversed) hback]
    cases b
    cases hid
    cases hlayers
    rfl
  exact ⟨.new universal qs, rfl, serveBlock_yields hd n rfl hroute hresult hyields,
    serveBlock_yields hd' n' rfl hroute' hresult' (hsame ▸ hyields')⟩

def slabKept : Dict (List Tag) := .ofList [("waterlogged", [.string "false", .string "true"])]

def slabHalf : Respelling :=
  ⟨"half", "type", [(.string "bottom", .string "lower"), (.string "top", .string "upper")]⟩

def slabVariant : Respelling :=
  ⟨"variant", "material", [(.string "brick", .string "bricks"), (.string "oak", .string "oak")]⟩

def slabVersion (platform : String) (id : RecordId) (defaults : Properties)
    (toUniversal fromUniversal : ByName (List Rule)) : VersionData :=
  { VersionData.ofMeta ⟨platform, ⟨1, 13, 2⟩, 0, .blockstate⟩ with
    block := ⟨none, some ⟨.ofList [(id.space, .ofList [(id.base, ⟨defaults, ∅, none⟩)])],
      toUniversal, fromUniversal⟩⟩ }

def nativeSlab : RecordId := ⟨"minecraft", "slab"⟩

def universalSlab : RecordId := ⟨"universal_minecraft", "slab"⟩

/-- Slabs keep whether they stand in water; what they are made of and which half they fill go by
other names in the universal form. -/
def slabConverters : Converters where
  version := slabVersion "java" nativeSlab (.ofList [("half", .string "bottom")])
    (.ofList [("minecraft", .ofList
      [("slab", Rule.respelling universalSlab slabKept [slabHalf, slabVariant])])])
    (.ofList [("universal_minecraft", .ofList
      [("slab", Rule.respelling nativeSlab slabKept [slabVariant.flip, slabHalf.flip])])])
  universal := slabVersion "universal" universalSlab (.ofList [("type", .string "lower")]) ∅ ∅
  scripts := ∅
  prepopulate := true

def brickSlab : Block := .new nativeSlab
  (.ofList [("half", .string "top"), ("variant", .string "brick"), ("waterlogged", .string "true")])

theorem slabs_oneToOne : OneToOne slabKept [slabHalf, slabVariant] where
  sources := by decide
  targets := by decide
  apart := by decide
  values := by decide

theorem slabConverters_respell :
    slabConverters.Respell false nativeSlab universalSlab slabKept [slabHalf, slabVariant]
      [slabVariant.flip, slabHalf.flip] where
  oneToOne := slabs_oneToOne
  reversed := .swap ..
  nativeName := rfl
  universalName := rfl
  toUniversal := rfl
  fromUniversal := rfl
  nativeDefaults := by
    refine ⟨_, rfl, fun key v hv => .inr ?_⟩
    cases List.mem_singleton.1 (Table.mem_of_get?_eq_some hv)
    decide
  universalDefaults := by
    refine ⟨_, rfl, fun key v hv => .inr ?_⟩
    cases List.mem_singleton.1 (Table.mem_of_get?_eq_some hv)
    decide

theorem brickSlab_covered : Covered slabKept [slabHalf, slabVariant] brickSlab.properties where
  carried key vs hvs := by
    cases List.mem_singleton.1 (Table.mem_of_get?_eq_some hvs)
    exact ⟨.string "true", by decide, rfl⟩
  respelled := by decide
  only key v hv := by
    have hall : ∀ e ∈ brickSlab.properties.entries, Concerns slabKept [slabHalf, slabVariant] e.1 :=
      by decide
    exact hall (key, v) (Table.mem_of_get?_eq_some hv)

/-- A brick slab comes back as the upper half that it was, over defaults for a lower one. -/
theorem fromUniversal_toUniversal_brickSlab :
    slabConverters.Respell false nativeSlab universalSlab slabKept [slabHalf, slabVariant]
      [slabVariant.flip, slabHalf.flip] ∧
    Covered slabKept [slabHalf, slabVariant] brickSlab.properties ∧
    Remembers slabConverters [] .empty ∧
    ∃ u, u.id = universalSlab ∧
      (serveBlock slabConverters (.alone .toUniversal brickSlab false none) .empty
        .zero).conversion.Yields u ∧
      (serveBlock slabConverters (.alone .fromUniversal u false none) .empty
        .zero).conversion.Yields brickSlab :=
  ⟨slabConverters_respell, brickSlab_covered, empty_remembers,
    fromUniversal_toUniversal slabConverters_respell rfl rfl brickSlab_covered empty_remembers
      empty_remembers .zero .zero none none⟩

end Desk

end BlockConvert
