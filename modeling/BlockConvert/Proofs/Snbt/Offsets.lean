import BlockConvert.Snbt.Scanner
import Mathlib.Data.String.Basic

set_option autoImplicit false

/-!
# Positions in bytes

A position is a boundary if it is the size of some beginning of the text, and a piece is cut out at
two positions if they are the sizes of the text before it and of the text up to its end.
-/

namespace BlockConvert.Snbt

def CharAt (text : String) (position : Nat) (c : Char) : Prop :=
  IsBoundary text position ∧ position < text.utf8ByteSize ∧
    String.Pos.Raw.get? text ⟨position⟩ = some c

variable {text piece : String} {before after cs ds : List Char} {c : Char} {first last : Nat}

theorem byteSize_eq (cs : List Char) : byteSize cs = String.utf8Len cs := by
  induction cs with
  | nil => rfl
  | cons c rest ih => rw [byteSize, String.utf8Len_cons, ih, Nat.add_comm]

theorem byteSize_append (cs ds : List Char) : byteSize (cs ++ ds) = byteSize cs + byteSize ds := by
  simp only [byteSize_eq, String.utf8Len_append]

theorem byteSize_toList (text : String) : byteSize text.toList = text.utf8ByteSize := by
  rw [byteSize_eq, String.utf8Len_toList]

theorem byteSize_pos (hne : cs ≠ []) : 0 < byteSize cs := by
  cases cs with
  | nil => contradiction
  | cons c rest =>
    have hc := c.utf8Size_pos
    simp only [byteSize]
    omega

theorem isBoundary_iff : IsBoundary text first ↔
    ∃ before after, text.toList = before ++ after ∧ byteSize before = first := by
  rw [IsBoundary, String.Pos.Raw.isValid_iff_exists_append]
  constructor
  · rintro ⟨s, t, rfl, hfirst⟩
    refine ⟨s.toList, t.toList, String.toList_append, ?_⟩
    rw [byteSize_toList]
    exact (congrArg String.Pos.Raw.byteIdx hfirst).symm
  · rintro ⟨before, after, htext, rfl⟩
    refine ⟨String.ofList before, String.ofList after, ?_, ?_⟩
    · rw [← String.ofList_append, ← htext, String.ofList_toList]
    · rw [String.rawEndPos_ofList, byteSize_eq]

theorem isBoundary_of_split (h : text.toList = before ++ after) :
    IsBoundary text (byteSize before) :=
  isBoundary_iff.2 ⟨before, after, h, rfl⟩

theorem charAt_of_split (h : text.toList = before ++ c :: after) :
    CharAt text (byteSize before) c := by
  refine ⟨isBoundary_of_split h, ?_, ?_⟩
  · have hsize := byteSize_pos (List.cons_ne_nil c after)
    rw [← byteSize_toList, h, byteSize_append]
    omega
  · have hget := String.get?_of_valid before (c :: after)
    rwa [← h, String.ofList_toList, ← byteSize_eq] at hget

theorem cut?_of_split (h : text.toList = before ++ cs ++ after) :
    cut? text (byteSize before) (byteSize before + byteSize cs) = some (String.ofList cs) := by
  have hfirst : IsBoundary text (byteSize before) :=
    isBoundary_of_split (h.trans (List.append_assoc _ _ _))
  have hlast : IsBoundary text (byteSize before + byteSize cs) := by
    rw [← byteSize_append]
    exact isBoundary_of_split h
  have hpiece := String.extract_of_valid before cs after
  rw [← h, String.ofList_toList, ← byteSize_eq, ← byteSize_eq] at hpiece
  rw [cut?, if_pos ⟨Nat.le_add_right _ _, hfirst, hlast⟩, hpiece]

/-- Of two beginnings of a text the one with fewer bytes begins the other. -/
theorem exists_append_of_byteSize_le {es fs : List Char} (h : cs ++ es = ds ++ fs)
    (hle : byteSize cs ≤ byteSize ds) : ∃ between, ds = cs ++ between := by
  rcases List.append_eq_append_iff.1 h with ⟨between, hds, -⟩ | ⟨between, hcs, -⟩
  · exact ⟨between, hds⟩
  · have hnil : between = [] := by
      by_contra hne
      have hpos := byteSize_pos hne
      rw [hcs, byteSize_append] at hle
      omega
    exact ⟨[], by rw [hcs, hnil, List.append_nil, List.append_nil]⟩

theorem cut?_eq_some_iff : cut? text first last = some piece ↔
    ∃ before after, text.toList = before ++ piece.toList ++ after ∧ byteSize before = first ∧
      byteSize before + byteSize piece.toList = last := by
  constructor
  · intro h
    obtain ⟨⟨hle, hfirst, hlast⟩, -⟩ := Option.ite_none_right_eq_some.1 h
    obtain ⟨before, rest, hbefore, rfl⟩ := isBoundary_iff.1 hfirst
    obtain ⟨upTo, after, hupTo, rfl⟩ := isBoundary_iff.1 hlast
    obtain ⟨between, rfl⟩ := exists_append_of_byteSize_le (hbefore.symm.trans hupTo) hle
    have hcut := cut?_of_split hupTo
    rw [← byteSize_append, h] at hcut
    obtain rfl := Option.some.inj hcut
    refine ⟨before, after, ?_, rfl, ?_⟩
    · rw [hupTo, String.toList_ofList]
    · rw [byteSize_append, String.toList_ofList]
  · rintro ⟨before, after, htext, rfl, rfl⟩
    rw [cut?_of_split htext, String.ofList_toList]

theorem cut?_to_end (h : text.toList = before ++ after) :
    cut? text (byteSize before) text.utf8ByteSize = some (String.ofList after) := by
  refine cut?_eq_some_iff.2 ⟨before, [], ?_, rfl, ?_⟩
  · rw [h, String.toList_ofList, List.append_nil]
  · rw [← byteSize_toList, h, byteSize_append, String.toList_ofList]

end BlockConvert.Snbt
