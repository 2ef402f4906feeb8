import LsmGraph.Library.KeyedSort
import LsmGraph.Csr.Format
import Mathlib.Data.List.Basic
import Mathlib.Order.Basic

/-! # Writing a segment

`csr/writer.rs`: the edges are sorted, one `EdgeOffset` is emitted per run of equal sources, and the
metadata is computed from the sorted list. The lemmas state what the lookup filters rely on: every
edge of the segment is inside `[min_src, max_src]`, has a timestamp of at most `max_ts`, and passes
the partition test of the metadata, and the offset table addresses exactly the edges of a source. -/

namespace LsmGraph

open KeyedSort

namespace CsrWriter

/-- The value all edges share under `f`, or `mixed` when they differ or there are none. -/
def commonValue {β : Type} [DecidableEq β] (f : EdgeRecord → β) (mixed : β) :
    Option β → List EdgeRecord → β
  | value, [] => value.getD mixed
  | none, e :: edges => commonValue f mixed (some (f e)) edges
  | some existing, e :: edges =>
      if existing = f e then commonValue f mixed (some existing) edges else mixed

def segmentSrcLabel (edges : List EdgeRecord) : Int32 :=
  commonValue (fun e => sourceLabelFromVertexId e.src) unknownSourceLabel none edges

def segmentEdgeType (edges : List EdgeRecord) : EdgeType :=
  commonValue EdgeRecord.edgeType mixedEdgeType none edges

/-- Number of runs of equal sources. -/
def countUniqueSources (last : Option VertexId) : List EdgeRecord → Nat
  | [] => 0
  | e :: edges =>
      if last = some e.src then countUniqueSources last edges
      else countUniqueSources (some e.src) edges + 1

/-- Put one edge with index `first` in front of the offset table of the edges after it. -/
def addOffset (first : Nat) (e : EdgeRecord) : List EdgeOffset → List EdgeOffset
  | [] => [{ src := e.src, firstEdgeIdx := first, edgeCount := 1 }]
  | o :: offsets =>
      if o.src = e.src then
        { src := e.src, firstEdgeIdx := first, edgeCount := o.edgeCount + 1 } :: offsets
      else { src := e.src, firstEdgeIdx := first, edgeCount := 1 } :: o :: offsets

/-- The offset table: one entry per run of equal sources, the first edge having index `first`. -/
def edgeOffsets (first : Nat) : List EdgeRecord → List EdgeOffset
  | [] => []
  | e :: edges => addOffset first e (edgeOffsets (first + 1) edges)

/-- Metadata of a segment whose sorted edges are `edges`. -/
def segmentMeta (level : LevelId) (fileId : FileId) (edges : List EdgeRecord) : CsrSegmentMeta where
  fileId := fileId
  level := level
  srcLabel := segmentSrcLabel edges
  edgeTypePartition := segmentEdgeType edges
  minSrc := (edges.head?.map EdgeRecord.src).getD 0
  maxSrc := (edges.getLast?.map EdgeRecord.src).getD 0
  minTs := (edges.map EdgeRecord.ts).min?.getD 0
  edgeCount := edges.length
  uniqueSrcCount := countUniqueSources none edges
  segmentBytes :=
    csrHeaderLen + (edgeOffsets 0 edges).length * edgeOffsetLen + edges.length * diskEdgeBodyLen
  maxTs := (edges.map EdgeRecord.ts).max?.getD 0

/-- Header of a segment with that metadata and offset table. -/
def segmentHeader (m : CsrSegmentMeta) (offsets : List EdgeOffset) : CsrHeader where
  magic := csrMagic
  version := csrVersion
  headerLen := csrHeaderLen
  level := m.level
  flags := 0
  fileId := m.fileId
  createTs := m.maxTs
  minTs := m.minTs
  maxTs := m.maxTs
  srcLabel := m.srcLabel
  edgeTypePartition := m.edgeTypePartition
  minSrc := m.minSrc
  maxSrc := m.maxSrc
  edgeOffsetCount := offsets.length
  edgeBodyCount := m.edgeCount
  offsetsOffset := csrHeaderLen
  offsetsLen := offsets.length * edgeOffsetLen
  bodiesOffset := csrHeaderLen + offsets.length * edgeOffsetLen
  bodiesLen := m.edgeCount * diskEdgeBodyLen
  checksum := 0

/-- `write_segment`: the file contents and the metadata of a segment holding `edges`. -/
def writeSegment (level : LevelId) (fileId : FileId) (edges : List EdgeRecord) :
    CsrSegment × CsrSegmentMeta :=
  let edges := sortByKey EdgeRecord.versionKey edges
  let offsets := edgeOffsets 0 edges
  let metadata := segmentMeta level fileId edges
  ({ header := segmentHeader metadata offsets
     offsets := offsets
     bodies := edges.map DiskEdgeBody.ofRecord }, metadata)

/-! ## Metadata bounds -/

/-- The common value of a list is `mixed` or shared by every edge. -/
theorem commonValue_spec {β : Type} [DecidableEq β] {f : EdgeRecord → β} {mixed : β}
    {edges : List EdgeRecord} (value : Option β) :
    commonValue f mixed value edges = mixed ∨
      (∀ v, value = some v → commonValue f mixed value edges = v) ∧
        ∀ e ∈ edges, f e = commonValue f mixed value edges := by
  induction edges generalizing value with
  | nil =>
      refine Or.inr ⟨?_, fun e he => absurd he List.not_mem_nil⟩
      rintro v rfl
      rfl
  | cons e edges ih =>
      cases value with
      | none =>
          rw [commonValue]
          refine (ih (some (f e))).imp_right fun ⟨hv, hall⟩ => ⟨nofun, ?_⟩
          rintro e' (_ | ⟨_, he'⟩)
          · exact (hv _ rfl).symm
          · exact hall e' he'
      | some existing =>
          rw [commonValue]
          by_cases heq : existing = f e
          · rw [if_pos heq]
            refine (ih (some existing)).imp_right fun ⟨hv, hall⟩ => ⟨hv, ?_⟩
            rintro e' (_ | ⟨_, he'⟩)
            · exact heq ▸ (hv _ rfl).symm
            · exact hall e' he'
          · exact Or.inl (if_neg heq)

theorem segmentSrcLabel_spec {edges : List EdgeRecord} {e : EdgeRecord} (he : e ∈ edges) :
    segmentSrcLabel edges = unknownSourceLabel ∨
      segmentSrcLabel edges = sourceLabelFromVertexId e.src :=
  (commonValue_spec none).imp_right fun h => (h.2 e he).symm

theorem segmentEdgeType_spec {edges : List EdgeRecord} {e : EdgeRecord} (he : e ∈ edges) :
    segmentEdgeType edges = mixedEdgeType ∨ segmentEdgeType edges = e.edgeType :=
  (commonValue_spec none).imp_right fun h => (h.2 e he).symm

/-- **The partition test is sound**: it passes for every edge of the segment, typed or untyped. -/
theorem mayContainPartition_segmentMeta {level : LevelId} {fileId : FileId}
    {edges : List EdgeRecord} {e : EdgeRecord} (he : e ∈ edges) {edgeType : Option EdgeType}
    (htype : ∀ t, edgeType = some t → e.edgeType = t) :
    (segmentMeta level fileId edges).mayContainPartition e.src edgeType = true := by
  simp only [CsrSegmentMeta.mayContainPartition, Bool.and_eq_true]
  constructor
  · rcases segmentSrcLabel_spec he with h | h <;> simp [segmentMeta, h]
  · cases edgeType with
    | none => rfl
    | some t =>
        rcases segmentEdgeType_spec he with h | h
        · simp [segmentMeta, h]
        · simp [segmentMeta, h, htype t rfl]

/-- Edges sorted by version are sorted by source. -/
theorem src_le_of_versionKey_le {a b : EdgeRecord} (h : a.versionKey ≤ b.versionKey) :
    a.src ≤ b.src := by
  have hkey : a.key ≤ b.key := by
    rcases Prod.Lex.le_iff.mp h with h | h
    · exact h.le
    · exact h.1.le
  rcases Prod.Lex.le_iff.mp hkey with h | h
  · exact h.le
  · exact h.1.le

/-- A sorted segment's edges are ascending in their source. -/
theorem pairwise_src_sortByKey (edges : List EdgeRecord) :
    (sortByKey EdgeRecord.versionKey edges).Pairwise fun a b => a.src ≤ b.src :=
  (pairwise_sortByKey EdgeRecord.versionKey edges).imp fun h => src_le_of_versionKey_le h

/-- Every edge of a segment lies between its first and last source. -/
theorem src_mem_range {level : LevelId} {fileId : FileId} {edges : List EdgeRecord}
    (hsorted : edges.Pairwise fun a b => a.src ≤ b.src) {e : EdgeRecord} (he : e ∈ edges) :
    (segmentMeta level fileId edges).minSrc ≤ e.src ∧
      e.src ≤ (segmentMeta level fileId edges).maxSrc := by
  constructor
  · cases edges with
    | nil => exact absurd he List.not_mem_nil
    | cons first edges =>
        rw [List.pairwise_cons] at hsorted
        rcases List.mem_cons.mp he with rfl | he
        · exact le_rfl
        · exact hsorted.1 e he
  · have hne : edges ≠ [] := List.ne_nil_of_mem he
    have hlast : (segmentMeta level fileId edges).maxSrc = (edges.getLast hne).src := by
      simp [segmentMeta, List.getLast?_eq_getLast_of_ne_nil hne]
    rw [hlast]
    rw [← List.dropLast_append_getLast hne, List.pairwise_append] at hsorted
    rw [← List.dropLast_append_getLast hne] at he
    rcases List.mem_append.mp he with he | he
    · exact hsorted.2.2 e he _ (List.mem_singleton_self _)
    · rw [List.mem_singleton.mp he]

/-- No edge of a segment is newer than its `max_ts`. -/
theorem ts_le_maxTs {level : LevelId} {fileId : FileId} {edges : List EdgeRecord} {e : EdgeRecord}
    (he : e ∈ edges) : e.ts ≤ (segmentMeta level fileId edges).maxTs := by
  have hts : e.ts ∈ edges.map EdgeRecord.ts := List.mem_map_of_mem he
  obtain ⟨m, hm⟩ := Option.isSome_iff_exists.mp (List.isSome_max?_of_mem hts)
  have hmax : (segmentMeta level fileId edges).maxTs = m := by simp [segmentMeta, hm]
  rw [hmax]
  exact (List.max?_eq_some_iff.mp hm).2 _ hts

/-- The `max_ts` of a nonempty segment is the timestamp of one of its edges. -/
theorem exists_ts_eq_maxTs (level : LevelId) (fileId : FileId) {edges : List EdgeRecord}
    (hne : edges ≠ []) : ∃ e ∈ edges, e.ts = (segmentMeta level fileId edges).maxTs := by
  obtain ⟨m, hm⟩ := Option.isSome_iff_exists.mp
    (List.isSome_max?_of_ne_nil (List.map_eq_nil_iff.not.mpr hne) :
      (edges.map EdgeRecord.ts).max?.isSome)
  have hmax : (segmentMeta level fileId edges).maxTs = m := by simp [segmentMeta, hm]
  rw [hmax]
  exact List.mem_map.mp (List.max?_eq_some_iff.mp hm).1

/-! ## The offset table

Sources of the table are the sources of the edges, ascending when the edges are, and the slice of an
entry is the run of its source. The induction is on the edges, the entry of the first run growing at
its front. -/

/-- The first entry of a table belongs to the first edge. -/
theorem addOffset_eq_cons (first : Nat) (e : EdgeRecord) (offsets : List EdgeOffset) :
    ∃ count tail, addOffset first e offsets = ⟨e.src, first, count⟩ :: tail := by
  cases offsets with
  | nil => exact ⟨1, [], rfl⟩
  | cons o offsets =>
      rw [addOffset]
      split
      · exact ⟨_, _, rfl⟩
      · exact ⟨_, _, rfl⟩

/-- A source has an entry iff it is the source of an edge. -/
theorem exists_mem_edgeOffsets (first : Nat) {edges : List EdgeRecord} {src : VertexId} :
    (∃ o ∈ edgeOffsets first edges, o.src = src) ↔ ∃ e ∈ edges, e.src = src := by
  induction edges generalizing first with
  | nil => simp [edgeOffsets]
  | cons e edges ih =>
      rw [edgeOffsets]
      simp only [List.mem_cons, exists_eq_or_imp, ← ih (first + 1)]
      cases edgeOffsets (first + 1) edges with
      | nil => simp [addOffset]
      | cons o offsets =>
          rw [addOffset]
          split
          · rename_i hsrc
            simp [hsrc]
          · simp

/-- Entries of a sorted segment are strictly ascending in their source. -/
theorem pairwise_edgeOffsets (first : Nat) {edges : List EdgeRecord}
    (hsorted : edges.Pairwise fun a b => a.src ≤ b.src) :
    (edgeOffsets first edges).Pairwise fun a b => a.src < b.src := by
  induction edges generalizing first with
  | nil => exact List.Pairwise.nil
  | cons e edges ih =>
      rw [List.pairwise_cons] at hsorted
      have hasc := ih (first + 1) hsorted.2
      -- every entry behind the first edge has a source at least as large
      have hle : ∀ o ∈ edgeOffsets (first + 1) edges, e.src ≤ o.src := by
        intro o ho
        obtain ⟨x, hx, hsrc⟩ := (exists_mem_edgeOffsets _).mp ⟨o, ho, rfl⟩
        exact hsrc ▸ hsorted.1 x hx
      rw [edgeOffsets]
      generalize edgeOffsets (first + 1) edges = offsets at hasc hle
      cases offsets with
      | nil => exact List.pairwise_singleton _ _
      | cons o offsets =>
          have ho := List.pairwise_cons.mp hasc
          rw [addOffset]
          split
          · rename_i hsrc
            exact List.pairwise_cons.mpr ⟨fun o' ho' => hsrc ▸ ho.1 o' ho', ho.2⟩
          · rename_i hne
            have hlt : e.src < o.src := lt_of_le_of_ne (hle o List.mem_cons_self) (Ne.symm hne)
            refine List.pairwise_cons.mpr ⟨fun o' ho' => ?_, hasc⟩
            rcases List.mem_cons.mp ho' with rfl | ho'
            · exact hlt
            · exact hlt.trans (ho.1 o' ho')

/-- The part of a segment an entry addresses, when the first edge has index `first`. -/
def slice {α : Type*} (first : Nat) (edges : List α) (o : EdgeOffset) : List α :=
  (edges.drop (o.firstEdgeIdx - first)).take o.edgeCount

/-- An entry that starts behind the first edge addresses the same part of the edges behind it. -/
theorem slice_cons {α : Type*} {first : Nat} {e : α} {edges : List α} {o : EdgeOffset}
    (h : first + 1 ≤ o.firstEdgeIdx) : slice first (e :: edges) o = slice (first + 1) edges o := by
  obtain ⟨k, hk⟩ : ∃ k, o.firstEdgeIdx - first = k + 1 := ⟨o.firstEdgeIdx - (first + 1), by omega⟩
  rw [slice, slice, hk, List.drop_succ_cons]
  congr 2
  omega

theorem slice_map {α β : Type*} (f : α → β) (first : Nat) (edges : List α) (o : EdgeOffset) :
    slice first (edges.map f) o = (slice first edges o).map f := by
  rw [slice, slice, List.map_take, List.map_drop]

/-- No entry of a table starts before its first edge. -/
theorem le_firstEdgeIdx (first : Nat) (edges : List EdgeRecord) :
    ∀ o ∈ edgeOffsets first edges, first ≤ o.firstEdgeIdx := by
  induction edges generalizing first with
  | nil => exact fun o ho => absurd ho List.not_mem_nil
  | cons e edges ih =>
      have hrest := fun o ho => Nat.le_of_succ_le (ih (first + 1) o ho)
      rw [edgeOffsets]
      cases hoffsets : edgeOffsets (first + 1) edges with
      | nil => simp [addOffset]
      | cons o tail =>
          rw [hoffsets] at hrest
          have htail := fun o' ho' => hrest o' (List.mem_cons_of_mem o ho')
          rw [addOffset]
          split
          · exact List.forall_mem_cons.mpr ⟨le_rfl, htail⟩
          · exact List.forall_mem_cons.mpr ⟨le_rfl, hrest⟩

/-- The first entry of a table starts at the first edge. -/
theorem head_edgeOffsets {first : Nat} {edges : List EdgeRecord} {o : EdgeOffset}
    {tail : List EdgeOffset} (h : edgeOffsets first edges = o :: tail) :
    o.firstEdgeIdx = first ∧ ∃ e rest, edges = e :: rest ∧ o.src = e.src := by
  cases edges with
  | nil => exact absurd h (by simp [edgeOffsets])
  | cons e edges =>
      obtain ⟨count, tail', htail⟩ := addOffset_eq_cons first e (edgeOffsets (first + 1) edges)
      rw [edgeOffsets, htail, List.cons.injEq] at h
      obtain ⟨rfl, -⟩ := h
      exact ⟨rfl, e, edges, rfl, rfl⟩

/-- An empty table belongs to an empty segment. -/
theorem edgeOffsets_eq_nil {first : Nat} {edges : List EdgeRecord}
    (h : edgeOffsets first edges = []) : edges = [] := by
  cases edges with
  | nil => rfl
  | cons e edges =>
      obtain ⟨count, tail, htail⟩ := addOffset_eq_cons first e (edgeOffsets (first + 1) edges)
      rw [edgeOffsets, htail] at h
      exact absurd h (List.cons_ne_nil _ _)

/-- **The slices tile the segment**, in order. -/
theorem flatMap_slice_edgeOffsets (first : Nat) (edges : List EdgeRecord) :
    (edgeOffsets first edges).flatMap (slice first edges) = edges := by
  induction edges generalizing first with
  | nil => rfl
  | cons e edges ih =>
      have htile := ih (first + 1)
      have hle := le_firstEdgeIdx (first + 1) edges
      rw [edgeOffsets]
      cases hoffsets : edgeOffsets (first + 1) edges with
      | nil => simp [addOffset, slice, edgeOffsets_eq_nil hoffsets]
      | cons o tail =>
          rw [hoffsets] at htile hle
          have hshift : (o :: tail).flatMap (slice first (e :: edges)) = edges :=
            (List.flatMap_congr fun o' ho' => slice_cons (hle o' ho')).trans htile
          rw [addOffset]
          split
          · -- the run of `e` goes on: its entry grows at the front
            obtain ⟨hidx, -⟩ := head_edgeOffsets hoffsets
            rw [List.flatMap_cons, slice_cons (hle o List.mem_cons_self), slice, hidx,
              Nat.sub_self, List.drop_zero] at hshift
            rw [List.flatMap_cons, slice, Nat.sub_self, List.drop_zero, List.take_succ_cons,
              List.cons_append, hshift]
          · -- a new run starts after `e`
            rw [List.flatMap_cons, hshift]
            simp [slice]

/-- **An entry addresses the run of its source.** In a sorted segment the slice of an entry is the
list of all edges with its source. -/
theorem slice_edgeOffsets (first : Nat) {edges : List EdgeRecord}
    (hsorted : edges.Pairwise fun a b => a.src ≤ b.src) :
    ∀ o ∈ edgeOffsets first edges, slice first edges o = edges.filter fun e => e.src = o.src := by
  induction edges generalizing first with
  | nil => exact fun o ho => absurd ho List.not_mem_nil
  | cons e edges ih =>
      have hasc := pairwise_edgeOffsets first hsorted
      have hle := le_firstEdgeIdx (first + 1) edges
      rw [List.pairwise_cons] at hsorted
      have hrest := ih (first + 1) hsorted.2
      -- an entry of another source behind that of `e` addresses the same run as before
      have hlater : ∀ o ∈ edgeOffsets (first + 1) edges, e.src < o.src →
          slice first (e :: edges) o = (e :: edges).filter fun e => e.src = o.src := by
        intro o ho hlt
        rw [slice_cons (hle o ho), hrest o ho, List.filter_cons_of_neg (by simpa using hlt.ne)]
      rw [edgeOffsets] at hasc ⊢
      cases hoffsets : edgeOffsets (first + 1) edges with
      | nil => simp [addOffset, slice, edgeOffsets_eq_nil hoffsets]
      | cons o tail =>
          rw [hoffsets] at hasc hrest hlater
          obtain ⟨hidx, x, rest, rfl, hsrc⟩ := head_edgeOffsets hoffsets
          rw [addOffset] at hasc ⊢
          split at hasc
          · -- the run of `e` goes on: its entry grows at the front
            rename_i heq
            have hasc' := List.pairwise_cons.mp hasc
            rw [if_pos heq]
            refine List.forall_mem_cons.mpr ⟨?_, fun o' ho' =>
              hlater o' (List.mem_cons_of_mem o ho') (hasc'.1 o' ho')⟩
            have hslice := hrest o List.mem_cons_self
            rw [slice, hidx, Nat.sub_self, List.drop_zero, heq] at hslice
            rw [slice, Nat.sub_self, List.drop_zero, List.take_succ_cons, hslice,
              List.filter_cons_of_pos (a := e) (by simp)]
          · -- a new run starts after `e`
            rename_i heq
            have hasc' := List.pairwise_cons.mp hasc
            rw [if_neg heq]
            refine List.forall_mem_cons.mpr ⟨?_, fun o' ho' => hlater o' ho' (hasc'.1 o' ho')⟩
            have hlt : e.src < x.src := hsrc ▸ hasc'.1 o List.mem_cons_self
            have hnone : ∀ y ∈ x :: rest, e.src < y.src := by
              refine List.forall_mem_cons.mpr ⟨hlt, fun y hy => ?_⟩
              exact hlt.trans_le ((List.pairwise_cons.mp hsorted.2).1 y hy)
            have hnil : (x :: rest).filter (fun y => y.src = e.src) = [] := by
              rw [List.filter_eq_nil_iff]
              exact fun y hy => by simpa using (hnone y hy).ne'
            rw [List.filter_cons_of_pos (by simp), hnil]
            simp [slice]

/-- The bodies an entry addresses are the edges of its source. -/
theorem map_toEdgeRecord_bodies {edges : List EdgeRecord}
    (hsorted : edges.Pairwise fun a b => a.src ≤ b.src) :
    ∀ o ∈ edgeOffsets 0 edges,
      (((edges.map DiskEdgeBody.ofRecord).drop o.firstEdgeIdx).take o.edgeCount).map
        (fun body => body.toEdgeRecord o.src) = edges.filter fun e => e.src = o.src := by
  intro o ho
  have hslice := slice_edgeOffsets 0 hsorted o ho
  have hbodies := slice_map DiskEdgeBody.ofRecord 0 edges o
  rw [slice, Nat.sub_zero] at hbodies
  rw [hbodies, hslice, List.map_map]
  refine (List.map_congr_left fun e he => ?_).trans (List.map_id _)
  rw [List.mem_filter, decide_eq_true_iff] at he
  rw [Function.comp_apply, ← he.2, DiskEdgeBody.toEdgeRecord_ofRecord, id]

/-- Outside the range of the metadata there are no edges. -/
theorem filter_eq_nil_of_range {level : LevelId} {fileId : FileId} {edges : List EdgeRecord}
    (hsorted : edges.Pairwise fun a b => a.src ≤ b.src) {src : VertexId}
    (hrange : src < (segmentMeta level fileId edges).minSrc ∨
      (segmentMeta level fileId edges).maxSrc < src ∨
      (segmentMeta level fileId edges).edgeCount = 0) :
    (edges.filter fun e => e.src = src) = [] := by
  refine List.filter_eq_nil_iff.mpr fun e he hsrc => ?_
  have hbounds := @src_mem_range level fileId edges hsorted e he
  rw [of_decide_eq_true hsrc] at hbounds
  rcases hrange with hlt | hlt | hzero
  · exact absurd hbounds.1 hlt.not_ge
  · exact absurd hbounds.2 hlt.not_ge
  · exact absurd hzero (List.length_pos_of_mem he).ne'

/-! ## The table as a tiling

Each entry starts where the one before it ended, and the last one ends with the segment. -/

/-- The ranges of the entries tile `first ..< stop`, in order. -/
def Tiles : Nat → List EdgeOffset → Nat → Prop
  | first, [], stop => first = stop
  | first, o :: offsets, stop => o.firstEdgeIdx = first ∧ Tiles (first + o.edgeCount) offsets stop

/-- **The offset table tiles the segment.** -/
theorem tiles_edgeOffsets (first : Nat) (edges : List EdgeRecord) :
    Tiles first (edgeOffsets first edges) (first + edges.length) := by
  induction edges generalizing first with
  | nil => rfl
  | cons e edges ih =>
      have htiles := ih (first + 1)
      have hstop : first + 1 + edges.length = first + (e :: edges).length := by
        rw [List.length_cons]
        omega
      rw [hstop] at htiles
      rw [edgeOffsets]
      cases hoffsets : edgeOffsets (first + 1) edges with
      | nil =>
          rw [edgeOffsets_eq_nil hoffsets]
          exact ⟨rfl, rfl⟩
      | cons o tail =>
          rw [hoffsets] at htiles
          rw [addOffset]
          split
          · refine ⟨rfl, ?_⟩
            rw [Nat.add_comm o.edgeCount 1, ← Nat.add_assoc]
            exact htiles.2
          · exact ⟨rfl, htiles⟩

/-- An entry of a tiling stays inside it. -/
theorem Tiles.le_stop {offsets : List EdgeOffset} {first stop : Nat}
    (h : Tiles first offsets stop) :
    first ≤ stop ∧ ∀ o ∈ offsets, o.firstEdgeIdx + o.edgeCount ≤ stop := by
  induction offsets generalizing first with
  | nil => exact ⟨le_of_eq h, fun o ho => absurd ho List.not_mem_nil⟩
  | cons o offsets ih =>
      obtain ⟨hstart, hrest⟩ := h
      obtain ⟨hle, hmem⟩ := ih hrest
      exact ⟨by omega, List.forall_mem_cons.mpr ⟨by omega, hmem⟩⟩

/-- The last entry of a tiling ends it. -/
theorem Tiles.exists_last {offsets : List EdgeOffset} {first stop : Nat}
    (h : Tiles first offsets stop) (hne : offsets ≠ []) :
    ∃ o ∈ offsets, o.firstEdgeIdx + o.edgeCount = stop := by
  induction offsets generalizing first with
  | nil => exact absurd rfl hne
  | cons o offsets ih =>
      obtain ⟨hstart, hrest⟩ := h
      by_cases hnil : offsets = []
      · subst hnil
        exact ⟨o, List.mem_cons_self, by rw [hstart]; exact hrest⟩
      · obtain ⟨o', ho', hstop⟩ := ih hrest hnil
        exact ⟨o', List.mem_cons_of_mem o ho', hstop⟩

/-- No run of a sorted segment is empty. -/
theorem edgeCount_pos (first : Nat) {edges : List EdgeRecord}
    (hsorted : edges.Pairwise fun a b => a.src ≤ b.src) :
    ∀ o ∈ edgeOffsets first edges, 0 < o.edgeCount := by
  intro o ho
  obtain ⟨e, he, hsrc⟩ := (exists_mem_edgeOffsets first).mp ⟨o, ho, rfl⟩
  have hmem : e ∈ slice first edges o := by
    rw [slice_edgeOffsets first hsorted o ho, List.mem_filter]
    exact ⟨he, decide_eq_true hsrc⟩
  refine Nat.pos_of_ne_zero fun hzero => ?_
  rw [slice, hzero, List.take_zero] at hmem
  exact absurd hmem List.not_mem_nil

/-- A new first edge adds an entry unless it goes on with the first run. -/
theorem length_edgeOffsets_cons (first : Nat) (e : EdgeRecord) (edges : List EdgeRecord) :
    (edgeOffsets first (e :: edges)).length = (edgeOffsets (first + 1) edges).length +
      if edges.head?.map EdgeRecord.src = some e.src then 0 else 1 := by
  rw [edgeOffsets]
  cases hoffsets : edgeOffsets (first + 1) edges with
  | nil => simp [addOffset, edgeOffsets_eq_nil hoffsets]
  | cons o tail =>
      obtain ⟨-, x, rest, rfl, hsrc⟩ := head_edgeOffsets hoffsets
      rw [addOffset, hsrc]
      by_cases h : x.src = e.src <;> simp [h]

/-- The number of entries is the number of sources the metadata counts. -/
theorem length_edgeOffsets (first : Nat) (edges : List EdgeRecord) :
    (edgeOffsets first edges).length = countUniqueSources none edges := by
  have hsome : ∀ (edges : List EdgeRecord) (first : Nat) (src : VertexId),
      countUniqueSources (some src) edges +
        (if edges.head?.map EdgeRecord.src = some src then 1 else 0) =
          (edgeOffsets first edges).length := by
    intro edges
    induction edges with
    | nil => simp [countUniqueSources, edgeOffsets]
    | cons e edges ih =>
        intro first src
        have hlen := length_edgeOffsets_cons first e edges
        rw [countUniqueSources]
        by_cases hsrc : e.src = src
        · have hih := ih (first + 1) src
          subst hsrc
          simp only [if_true, List.head?_cons, Option.map_some]
          split at hih <;> simp_all
        · have hih := ih (first + 1) e.src
          have hne : ¬ some src = some e.src := fun h => hsrc (Option.some.inj h).symm
          rw [if_neg hne]
          simp only [List.head?_cons, Option.map_some, Option.some.injEq, hsrc, if_false]
          split at hih <;> simp_all
  cases edges with
  | nil => rfl
  | cons e edges =>
      have hih := hsome edges (first + 1) e.src
      have hlen := length_edgeOffsets_cons first e edges
      rw [countUniqueSources, if_neg nofun]
      split at hih <;> simp_all

/-- There are at most as many entries as edges. -/
theorem length_edgeOffsets_le (first : Nat) (edges : List EdgeRecord) :
    (edgeOffsets first edges).length ≤ edges.length := by
  induction edges generalizing first with
  | nil => exact le_rfl
  | cons e edges ih =>
      have hlen := length_edgeOffsets_cons first e edges
      have hle := ih (first + 1)
      rw [List.length_cons]
      split at hlen <;> omega

end CsrWriter

end LsmGraph
