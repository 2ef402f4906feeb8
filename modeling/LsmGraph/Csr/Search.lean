import LsmGraph.Csr.Bytes
import LsmGraph.Library.BinarySearch

/-! # Searching the offset table

The two searches of `csr/reader.rs`: a loop over the encoded records and the library search over the
decoded ones. On a table that ascends in its sources both return the entry of the source exactly if
there is one (`findOffset_agrees`), as does the search that the readers are defined with
(`findOffsetInOffsets_eq`). -/

namespace LsmGraph

open ByteLayout BinarySearch KeyedSort

namespace OffsetSearch

/-- The record at a place of an encoded table. -/
def recordAt (offsetsBytes : List UInt8) (mid : Nat) : EdgeOffset :=
  EdgeOffset.decode (slice offsetsBytes (mid * edgeOffsetLen) edgeOffsetLen)

/-- `find_offset`; every record read lies inside the bytes (`slice_whole`). -/
def findOffset (offsetsBytes : List UInt8) (src : VertexId) : Option EdgeOffset :=
  windowSearch (recordAt offsetsBytes) EdgeOffset.src src 0 (offsetsBytes.length / edgeOffsetLen)

/-- `find_offset_in_offsets`. -/
def findOffsetInOffsets (offsets : List EdgeOffset) (src : VertexId) : Option EdgeOffset :=
  match binarySearchByKey offsets ⟨0, 0, 0⟩ EdgeOffset.src src with
  | .ok idx => offsets[idx]?
  | .error _ => none

/-- The record read at a midpoint lies inside the bytes. -/
theorem slice_whole {offsetsBytes : List UInt8} {mid : Nat}
    (h : mid < offsetsBytes.length / edgeOffsetLen) :
    (slice offsetsBytes (mid * edgeOffsetLen) edgeOffsetLen).length = edgeOffsetLen := by
  have hend : (mid + 1) * edgeOffsetLen ≤ offsetsBytes.length :=
    (Nat.le_div_iff_mul_le (by decide)).mp h
  rw [Nat.add_mul, Nat.one_mul] at hend
  rw [length_slice]
  omega

/-- The numbers of an entry fit their fields. -/
def Fits (o : EdgeOffset) : Prop := o.firstEdgeIdx < 2 ^ 64 ∧ o.edgeCount < 2 ^ 64

variable {offsets : List EdgeOffset} {src : VertexId}

theorem recordAt_encode (hfits : ∀ o ∈ offsets, Fits o) {mid : Nat} (hmid : mid < offsets.length) :
    recordAt (offsets.flatMap EdgeOffset.encode) mid = offsets[mid] := by
  have hslice := slice_flatMap_const EdgeOffset.length_encode offsets mid 1
  rw [Nat.one_mul, List.drop_eq_getElem_cons hmid, List.take_succ_cons, List.take_zero,
    List.flatMap_singleton] at hslice
  obtain ⟨hfirst, hcount⟩ := hfits offsets[mid] (List.getElem_mem hmid)
  rw [recordAt, hslice, EdgeOffset.decode_encode hfirst hcount]

theorem findOffset_eq_some_iff (hfits : ∀ o ∈ offsets, Fits o)
    (hasc : offsets.Pairwise fun a b => a.src < b.src) {o : EdgeOffset} :
    findOffset (offsets.flatMap EdgeOffset.encode) src = some o ↔ o ∈ offsets ∧ o.src = src := by
  have hlength : (offsets.flatMap EdgeOffset.encode).length / edgeOffsetLen = offsets.length := by
    rw [length_flatMap_const EdgeOffset.length_encode]
    exact Nat.mul_div_cancel _ (by decide)
  have hrecord := fun {mid} => @recordAt_encode offsets hfits mid
  rw [findOffset, hlength, windowSearch_eq_some_iff]
  · constructor
    · rintro ⟨i, -, hi, rfl, hsrc⟩
      rw [hrecord hi] at hsrc ⊢
      exact ⟨List.getElem_mem hi, hsrc⟩
    · rintro ⟨ho, hsrc⟩
      obtain ⟨i, hi, rfl⟩ := List.getElem_of_mem ho
      exact ⟨i, Nat.zero_le i, hi, hrecord hi, hsrc⟩
  · intro a b _ hab hb
    rw [hrecord (hab.trans hb), hrecord hb]
    exact List.pairwise_iff_getElem.mp hasc a b _ hb hab

theorem findOffsetInOffsets_eq_some_iff (hasc : offsets.Pairwise fun a b => a.src < b.src)
    {o : EdgeOffset} :
    findOffsetInOffsets offsets src = some o ↔ o ∈ offsets ∧ o.src = src := by
  rw [findOffsetInOffsets]
  constructor
  · intro h
    split at h
    · rename_i idx hidx
      obtain ⟨a, ha, hsrc⟩ := (binarySearchByKey_eq_ok_iff hasc).mp hidx
      cases ha.symm.trans h
      exact ⟨List.mem_of_getElem? h, hsrc⟩
    · cases h
  · rintro ⟨ho, hsrc⟩
    obtain ⟨i, hi⟩ := List.mem_iff_getElem?.mp ho
    rw [(binarySearchByKey_eq_ok_iff hasc).mpr ⟨o, hi, hsrc⟩]
    exact hi

/-- The readers' search is the library search. -/
theorem findOffsetInOffsets_eq (hasc : offsets.Pairwise fun a b => a.src < b.src)
    (src : VertexId) : LsmGraph.findOffsetInOffsets offsets src = findOffsetInOffsets offsets src := by
  refine Option.ext fun o => ?_
  rw [findOffsetInOffsets_eq_some_iff hasc]
  constructor
  · exact CsrReader.mem_of_findOffset
  · rintro ⟨ho, rfl⟩
    cases hfind : LsmGraph.findOffsetInOffsets offsets o.src with
    | none => exact absurd (beq_self_eq_true o.src) (List.find?_eq_none.mp hfind o ho)
    | some o' =>
        obtain ⟨ho', hsrc⟩ := CsrReader.mem_of_findOffset hfind
        rw [injOn_of_ascending hasc ho' ho hsrc]

/-- **The two offset searches agree.** On a table that ascends in its sources, of any length, both
return the one entry of the source if there is one, and nothing otherwise; and the search over the
bytes reads whole records only. -/
theorem findOffset_agrees (offsets : List EdgeOffset) (hfits : ∀ o ∈ offsets, Fits o)
    (hasc : offsets.Pairwise fun a b => a.src < b.src) (src : VertexId) :
    let offsetsBytes := offsets.flatMap EdgeOffset.encode
    (∀ mid < offsetsBytes.length / edgeOffsetLen,
      (slice offsetsBytes (mid * edgeOffsetLen) edgeOffsetLen).length = edgeOffsetLen) ∧
    findOffset offsetsBytes src = findOffsetInOffsets offsets src ∧
    (∀ o, findOffset offsetsBytes src = some o ↔ o ∈ offsets ∧ o.src = src) ∧
    (findOffset offsetsBytes src = none ↔ ∀ o ∈ offsets, o.src ≠ src) := by
  intro offsetsBytes
  have hbytes := fun o => @findOffset_eq_some_iff offsets src hfits hasc o
  refine ⟨fun mid => slice_whole, Option.ext fun o => ?_, hbytes, ?_⟩
  · rw [hbytes, findOffsetInOffsets_eq_some_iff hasc]
  · rw [Option.eq_none_iff_forall_ne_some]
    constructor
    · exact fun hnone o ho hsrc => hnone o ((hbytes o).mpr ⟨ho, hsrc⟩)
    · exact fun hne o hsome => hne o ((hbytes o).mp hsome).1 ((hbytes o).mp hsome).2

/-- A table of three entries, and a source between two of them. -/
theorem findOffset_agrees_between :
    findOffset ([⟨2, 0, 1⟩, ⟨5, 1, 2⟩, ⟨9, 3, 1⟩].flatMap EdgeOffset.encode) 6 =
      findOffsetInOffsets [⟨2, 0, 1⟩, ⟨5, 1, 2⟩, ⟨9, 3, 1⟩] 6 ∧
    findOffset ([⟨2, 0, 1⟩, ⟨5, 1, 2⟩, ⟨9, 3, 1⟩].flatMap EdgeOffset.encode) 6 = none := by
  have h := findOffset_agrees [⟨2, 0, 1⟩, ⟨5, 1, 2⟩, ⟨9, 3, 1⟩]
    (by simp [Fits]) (by decide) 6
  exact ⟨h.2.1, h.2.2.2.mpr (by decide)⟩

end OffsetSearch

end LsmGraph
