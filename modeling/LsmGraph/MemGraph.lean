import LsmGraph.Library.KeyedSort
import LsmGraph.Types
import Mathlib.Data.List.AList
import Mathlib.Data.List.GetD
import Mathlib.Logic.Function.Basic

/-! # The in-memory write buffer

`MemGraph` of `memgraph/mod.rs`: a source starts out in an inline segment of its own inside a shared
vector, and moves to a tree keyed by `(edge_type, dst, ts)` when the segment is full. `MemGraph.WF`
ties the four structures together; under it, inserting a record that is not yet stored adds exactly
that record (`insert_spec`), and both read operations return exactly what is stored
(`mem_getEdgesForSrc`, `mem_allEdgesSorted`). -/

namespace LsmGraph

open KeyedSort

/-- Where the edges of a source live. -/
inductive AdjRef
  | inline (segmentId : Nat)
  | overflow
  deriving DecidableEq, Repr

/-- The write buffer. `vertexMap` and `highDegree` are hash maps of the source, and a tree of
`highDegree` is the ascending list of its values. -/
structure MemGraph where
  inlineSegmentCapacity : Nat
  capacityBytes : Nat
  vertexMap : VertexId → Option AdjRef
  lowDegreeSegments : List (List EdgeRecord)
  highDegree : AList fun _ : VertexId => List EdgeRecord
  bytes : Nat
  edgeCount : Nat

namespace MemGraph

/-- An empty buffer. -/
def new (capacityBytes inlineSegmentCapacity : Nat) : MemGraph where
  inlineSegmentCapacity := inlineSegmentCapacity
  capacityBytes := capacityBytes
  vertexMap := fun _ => none
  lowDegreeSegments := []
  highDegree := ∅
  bytes := 0
  edgeCount := 0

/-- Key of a record in the tree of its source. -/
def treeKey (e : EdgeRecord) : EdgeType ×ₗ VertexId ×ₗ Timestamp :=
  toLex (e.edgeType, toLex (e.dst, e.ts))

/-- `BTreeMap::insert` on the ascending list of a tree's values. -/
def treeInsert (e : EdgeRecord) (tree : List EdgeRecord) : List EdgeRecord :=
  insertByKey treeKey e tree

/-- Insert a record: a new source opens an inline segment, a full segment migrates to a tree. -/
def insert (g : MemGraph) (edge : EdgeRecord) : MemGraph :=
  let g := { g with bytes := g.bytes + EdgeRecord.size, edgeCount := g.edgeCount + 1 }
  match g.vertexMap edge.src with
  | none =>
      { g with
        lowDegreeSegments := g.lowDegreeSegments ++ [[edge]]
        vertexMap :=
          Function.update g.vertexMap edge.src (some (.inline g.lowDegreeSegments.length)) }
  | some (.inline segmentId) =>
      if (g.lowDegreeSegments.getD segmentId []).length < g.inlineSegmentCapacity then
        { g with lowDegreeSegments := g.lowDegreeSegments.modify segmentId (· ++ [edge]) }
      else
        let existing := g.lowDegreeSegments.getD segmentId []
        let tree := (g.highDegree.lookup edge.src).getD []
        let tree := existing.foldl (fun tree old => treeInsert old tree) tree
        { g with
          lowDegreeSegments := g.lowDegreeSegments.set segmentId []
          highDegree := g.highDegree.insert edge.src (treeInsert edge tree)
          vertexMap := Function.update g.vertexMap edge.src (some .overflow) }
  | some .overflow =>
      let tree := (g.highDegree.lookup edge.src).getD []
      { g with highDegree := g.highDegree.insert edge.src (treeInsert edge tree) }

def isFull (g : MemGraph) : Bool := g.capacityBytes ≤ g.bytes

def isEmpty (g : MemGraph) : Bool := g.edgeCount == 0

/-- The records of one source, in insertion order while inline and in tree order afterwards. -/
def getEdgesForSrc (g : MemGraph) (src : VertexId) : List EdgeRecord :=
  match g.vertexMap src with
  | none => []
  | some (.inline segmentId) => g.lowDegreeSegments.getD segmentId []
  | some .overflow => (g.highDegree.lookup src).getD []

/-- All records, segments first. -/
def allEdges (g : MemGraph) : List EdgeRecord :=
  g.lowDegreeSegments.flatten ++ (g.highDegree.entries.map Sigma.snd).flatten

/-- All records, sorted by `(src, edge_type, dst, ts)`. -/
def allEdgesSorted (g : MemGraph) : List EdgeRecord :=
  sortByKey EdgeRecord.versionKey g.allEdges

/-! ## What a buffer stores -/

/-- `r` is stored in an inline segment or in a tree. -/
def Stores (g : MemGraph) (r : EdgeRecord) : Prop :=
  (∃ i, r ∈ g.lowDegreeSegments.getD i []) ∨ ∃ src, r ∈ (g.highDegree.lookup src).getD []

/-- The four structures agree: each source has one representation, holding records of that source
only, no two stored records share source, type, destination and timestamp, and the counter counts
them. -/
structure WF (g : MemGraph) : Prop where
  inline_lt : ∀ src i, g.vertexMap src = some (.inline i) → i < g.lowDegreeSegments.length
  inline_inj : ∀ a b i, g.vertexMap a = some (.inline i) → g.vertexMap b = some (.inline i) → a = b
  mem_low : ∀ i, ∀ r ∈ g.lowDegreeSegments.getD i [], g.vertexMap r.src = some (.inline i)
  mem_tree : ∀ src, ∀ r ∈ (g.highDegree.lookup src).getD [],
    r.src = src ∧ g.vertexMap src = some .overflow
  distinct : (g.allEdges.map EdgeRecord.versionKey).Nodup
  count_eq : g.edgeCount = g.allEdges.length

/-- A new buffer is well formed. -/
theorem wf_new (capacityBytes inlineSegmentCapacity : Nat) :
    (new capacityBytes inlineSegmentCapacity).WF := by
  constructor <;> simp [new, allEdges]

/-- A new buffer stores nothing. -/
@[simp] theorem not_stores_new (capacityBytes inlineSegmentCapacity : Nat) (r : EdgeRecord) :
    ¬ (new capacityBytes inlineSegmentCapacity).Stores r := by
  simp [new, Stores]

/-- The records gathered are those stored. -/
theorem mem_allEdges {g : MemGraph} {r : EdgeRecord} : r ∈ g.allEdges ↔ g.Stores r := by
  rw [allEdges, List.mem_append, Stores]
  refine or_congr ?_ ?_
  · rw [List.mem_flatten]
    constructor
    · rintro ⟨segment, hsegment, hr⟩
      obtain ⟨i, hi, rfl⟩ := List.mem_iff_getElem.mp hsegment
      exact ⟨i, by rwa [List.getD_eq_getElem _ _ hi]⟩
    · rintro ⟨i, hr⟩
      by_cases hi : i < g.lowDegreeSegments.length
      · rw [List.getD_eq_getElem _ _ hi] at hr
        exact ⟨_, List.getElem_mem hi, hr⟩
      · rw [List.getD_eq_default _ _ (not_lt.mp hi)] at hr
        exact absurd hr List.not_mem_nil
  · simp only [List.mem_flatten, List.mem_map]
    constructor
    · rintro ⟨tree, ⟨⟨src, _⟩, hentry, rfl⟩, hr⟩
      exact ⟨src, by rwa [AList.mem_lookup_iff.mpr hentry]⟩
    · rintro ⟨src, hr⟩
      cases hlookup : g.highDegree.lookup src with
      | none => simp [hlookup] at hr
      | some tree =>
          rw [hlookup, Option.getD_some] at hr
          exact ⟨tree, ⟨⟨src, tree⟩, AList.mem_lookup_iff.mp hlookup, rfl⟩, hr⟩

/-- `all_edges_sorted` returns what is stored. -/
@[simp] theorem mem_allEdgesSorted {g : MemGraph} {r : EdgeRecord} :
    r ∈ g.allEdgesSorted ↔ g.Stores r := by
  rw [allEdgesSorted, mem_sortByKey, mem_allEdges]

/-- It returns each record once. -/
theorem nodup_allEdgesSorted {g : MemGraph} (hg : g.WF) : g.allEdgesSorted.Nodup :=
  (perm_sortByKey _ _).nodup_iff.mpr (List.Nodup.of_map _ hg.distinct)

/-- Stored records are told apart by their sort keys. -/
theorem eq_of_versionKey_eq {g : MemGraph} (hg : g.WF) {r r' : EdgeRecord} (hr : g.Stores r)
    (hr' : g.Stores r') (hkey : r.versionKey = r'.versionKey) : r = r' :=
  List.inj_on_of_nodup_map hg.distinct (mem_allEdges.mpr hr) (mem_allEdges.mpr hr') hkey

/-- `get_edges_for_src` returns what is stored with that source. -/
theorem mem_getEdgesForSrc {g : MemGraph} (hg : g.WF) {src : VertexId} {r : EdgeRecord} :
    r ∈ g.getEdgesForSrc src ↔ g.Stores r ∧ r.src = src := by
  constructor
  · intro hr
    rw [getEdgesForSrc] at hr
    split at hr
    · exact absurd hr List.not_mem_nil
    · rename_i i hi
      exact ⟨Or.inl ⟨i, hr⟩, hg.inline_inj _ _ i (hg.mem_low i r hr) hi⟩
    · exact ⟨Or.inr ⟨src, hr⟩, (hg.mem_tree src r hr).1⟩
  · rintro ⟨⟨i, hr⟩ | ⟨src', hr⟩, rfl⟩
    · rw [getEdgesForSrc, hg.mem_low i r hr]
      exact hr
    · obtain ⟨hsrc, hmap⟩ := hg.mem_tree src' r hr
      rw [getEdgesForSrc, hsrc, hmap]
      exact hr

theorem isEmpty_iff {g : MemGraph} (hg : g.WF) : g.isEmpty = true ↔ ∀ r, ¬ g.Stores r := by
  rw [isEmpty, beq_iff_eq, hg.count_eq, List.length_eq_zero_iff, List.eq_nil_iff_forall_not_mem]
  exact forall_congr' fun r => mem_allEdges.not

/-! ## Tree insertion -/

/-- Records of one source with equal tree keys have equal sort keys. -/
theorem versionKey_eq_of_treeKey_eq {a b : EdgeRecord} (hsrc : a.src = b.src)
    (h : treeKey a = treeKey b) : a.versionKey = b.versionKey := by
  simp only [treeKey, EmbeddingLike.apply_eq_iff_eq, Prod.mk.injEq] at h
  obtain ⟨htype, hdst, hts⟩ := h
  simp [EdgeRecord.versionKey, EdgeRecord.key, hsrc, htype, hdst, hts]

/-- Moving a segment to a tree, when no two records involved share a tree key, adds its records. -/
theorem perm_foldl_treeInsert {existing tree : List EdgeRecord}
    (hdistinct : ((tree ++ existing).map treeKey).Nodup) :
    (existing.foldl (fun tree old => treeInsert old tree) tree).Perm (tree ++ existing) := by
  induction existing generalizing tree with
  | nil => simp
  | cons e existing ih =>
      have hnew : ∀ x ∈ tree, treeKey x ≠ treeKey e := by
        rw [List.map_append, List.nodup_append] at hdistinct
        exact fun x hx => hdistinct.2.2 _ (List.mem_map_of_mem hx) _ List.mem_cons_self
      have hinsert : (treeInsert e tree).Perm (e :: tree) := perm_insertByKey hnew
      have hperm : (treeInsert e tree ++ existing).Perm (tree ++ e :: existing) :=
        (hinsert.append_right existing).trans List.perm_middle.symm
      have hdistinct' : ((treeInsert e tree ++ existing).map treeKey).Nodup :=
        (hperm.map treeKey).nodup_iff.mpr hdistinct
      exact (ih hdistinct').trans hperm

/-- Moving a segment to a tree adds nothing but its records. -/
theorem mem_of_mem_foldl_treeInsert {existing tree : List EdgeRecord} {r : EdgeRecord}
    (h : r ∈ existing.foldl (fun tree old => treeInsert old tree) tree) : r ∈ tree ∨ r ∈ existing := by
  induction existing generalizing tree with
  | nil => exact Or.inl h
  | cons e existing ih =>
      rcases ih h with h | h
      · rcases mem_of_mem_insertByKey h with rfl | h
        · exact Or.inr List.mem_cons_self
        · exact Or.inl h
      · exact Or.inr (List.mem_cons_of_mem e h)

/-! ## Insertion adds exactly the new record -/

theorem perm_flatten_concat {l : List (List EdgeRecord)} {e : EdgeRecord} :
    (l ++ [[e]]).flatten.Perm (e :: l.flatten) := by
  rw [List.flatten_append, List.flatten_singleton]
  exact List.perm_append_comm

theorem perm_flatten_modify {l : List (List EdgeRecord)} {e : EdgeRecord} {k : ℕ}
    (hk : k < l.length) : (l.modify k (· ++ [e])).flatten.Perm (e :: l.flatten) := by
  induction l generalizing k with
  | nil => exact absurd hk (Nat.not_lt_zero k)
  | cons xs l ih =>
      cases k with
      | zero =>
          rw [List.modify_zero_cons, List.flatten_cons, List.flatten_cons, List.append_assoc]
          exact List.perm_middle
      | succ k =>
          rw [List.modify_succ_cons, List.flatten_cons, List.flatten_cons]
          exact ((ih (Nat.lt_of_succ_lt_succ hk)).append_left xs).trans List.perm_middle

theorem perm_flatten_set_nil (l : List (List EdgeRecord)) (k : ℕ) :
    l.flatten.Perm (l.getD k [] ++ (l.set k []).flatten) := by
  induction l generalizing k with
  | nil => exact List.Perm.refl _
  | cons xs l ih =>
      cases k with
      | zero => exact List.Perm.refl _
      | succ k =>
          rw [List.set_cons_succ, List.getD_cons_succ, List.flatten_cons, List.flatten_cons]
          refine ((ih k).append_left xs).trans ?_
          rw [← List.append_assoc, ← List.append_assoc]
          exact List.perm_append_comm.append_right _

/-- The records in trees are those of one source and those of the others. -/
theorem perm_flatten_erase (high : AList fun _ : VertexId => List EdgeRecord) (src : VertexId) :
    (high.entries.map Sigma.snd).flatten.Perm
      ((high.lookup src).getD [] ++ ((high.erase src).entries.map Sigma.snd).flatten) := by
  cases hlookup : high.lookup src with
  | none =>
      have hnot : src ∉ high.keys := fun h => by
        rw [AList.lookup_eq_none] at hlookup
        exact hlookup (AList.mem_keys.mpr h)
      have herase : (high.erase src).entries = high.entries := List.kerase_of_notMem_keys hnot
      rw [herase]
      exact List.Perm.refl _
  | some tree =>
      have hmem : (⟨src, tree⟩ : Sigma fun _ : VertexId => List EdgeRecord) ∈ high.entries :=
        AList.mem_lookup_iff.mp hlookup
      obtain ⟨tree', l₁, l₂, hnot, heq, herase⟩ := List.exists_of_kerase (List.mem_keys_of_mem hmem)
      -- keys are distinct, so the entry that goes is the one that is looked up
      have htree : tree' = tree := by
        have : (⟨src, tree'⟩ : Sigma fun _ : VertexId => List EdgeRecord) ∈ high.entries := by
          rw [heq]
          exact List.mem_append_right _ List.mem_cons_self
        exact high.nodupKeys.eq_of_mk_mem this hmem
      subst htree
      have hentries : (high.erase src).entries = l₁ ++ l₂ := herase
      rw [hentries, heq]
      simp only [List.map_append, List.map_cons, List.flatten_append, List.flatten_cons,
        Option.getD_some]
      rw [← List.append_assoc, ← List.append_assoc]
      exact List.perm_append_comm.append_right _

/-- Replacing the tree of a source. -/
theorem perm_flatten_insert (high : AList fun _ : VertexId => List EdgeRecord) (src : VertexId)
    (tree : List EdgeRecord) :
    ((high.insert src tree).entries.map Sigma.snd).flatten =
      tree ++ ((high.erase src).entries.map Sigma.snd).flatten := by
  have hentries : (high.insert src tree).entries = ⟨src, tree⟩ :: (high.erase src).entries := rfl
  rw [hentries, List.map_cons, List.flatten_cons]

/-- **Insertion adds one record.** -/
theorem perm_allEdges_insert {g : MemGraph} {e : EdgeRecord} (hg : g.WF)
    (hnew : ∀ r, g.Stores r → r.versionKey ≠ e.versionKey) :
    (g.insert e).allEdges.Perm (e :: g.allEdges) := by
  cases hmap : g.vertexMap e.src with
  | none =>
      -- a new segment for a new source
      simp only [insert, hmap, allEdges]
      exact perm_flatten_concat.append_right _
  | some ref =>
      cases ref with
      | inline k =>
          have hk := hg.inline_lt e.src k hmap
          by_cases hlen : (g.lowDegreeSegments.getD k []).length < g.inlineSegmentCapacity
          · simp only [insert, hmap, hlen, if_true, allEdges]
            exact (perm_flatten_modify hk).append_right _
          · -- the segment is full: its records and `e` make up the tree
            have hsegment : ∀ x ∈ g.lowDegreeSegments.getD k [], x.src = e.src := fun x hx =>
              hg.inline_inj _ _ k (hg.mem_low k x hx) hmap
            have htree : (g.highDegree.lookup e.src).getD [] = [] := by
              refine List.eq_nil_iff_forall_not_mem.mpr fun x hx => ?_
              have h := (hg.mem_tree e.src x hx).2
              exact absurd (hmap.symm.trans h) nofun
            have hlow := perm_flatten_set_nil g.lowDegreeSegments k
            have htrees := perm_flatten_erase g.highDegree e.src
            rw [htree, List.nil_append] at htrees
            have hnodup : (g.lowDegreeSegments.getD k []).Nodup := by
              have h := List.Nodup.of_map _ hg.distinct
              exact (List.nodup_append.mp
                (hlow.nodup_iff.mp (List.nodup_append.mp h).1)).1
            have hkeys : ((g.lowDegreeSegments.getD k []).map treeKey).Nodup := by
              refine List.Nodup.map_on (fun x hx y hy hkey => ?_) hnodup
              exact eq_of_versionKey_eq hg (Or.inl ⟨k, hx⟩) (Or.inl ⟨k, hy⟩)
                (versionKey_eq_of_treeKey_eq ((hsegment x hx).trans (hsegment y hy).symm) hkey)
            have hmoved : ((g.lowDegreeSegments.getD k []).foldl
                (fun tree old => treeInsert old tree) []).Perm (g.lowDegreeSegments.getD k []) :=
              perm_foldl_treeInsert hkeys
            have hinserted : (treeInsert e ((g.lowDegreeSegments.getD k []).foldl
                (fun tree old => treeInsert old tree) [])).Perm
                  (e :: g.lowDegreeSegments.getD k []) := by
              refine (perm_insertByKey fun x hx hkey => ?_).trans (hmoved.cons e)
              have hx' := hmoved.mem_iff.mp hx
              exact hnew x (Or.inl ⟨k, hx'⟩) (versionKey_eq_of_treeKey_eq (hsegment x hx') hkey)
            simp only [insert, hmap, hlen, if_false, allEdges, htree, perm_flatten_insert]
            refine ((hinserted.append_right _).append_left _).trans (List.perm_middle.trans ?_)
            refine List.Perm.cons e (List.Perm.trans ?_ (hlow.append htrees).symm)
            show (_ ++ (g.lowDegreeSegments.getD k [] ++ _)).Perm _
            rw [← List.append_assoc]
            exact List.perm_append_comm.append_right _
      | overflow =>
          -- the tree has no record with the key of `e`, so nothing is overwritten
          have htree : ∀ x ∈ (g.highDegree.lookup e.src).getD [], treeKey x ≠ treeKey e := by
            intro x hx hkey
            exact hnew x (Or.inr ⟨e.src, hx⟩)
              (versionKey_eq_of_treeKey_eq (hg.mem_tree e.src x hx).1 hkey)
          have hinserted := perm_insertByKey htree
          have htrees := perm_flatten_erase g.highDegree e.src
          simp only [insert, hmap, allEdges, perm_flatten_insert]
          refine ((hinserted.append_right _).append_left _).trans (List.perm_middle.trans ?_)
          exact (htrees.symm.append_left _).cons e

/-- What remains to be checked of a buffer with one more record. -/
theorem wf_of_perm {g g' : MemGraph} {e : EdgeRecord} (hg : g.WF)
    (hnew : ∀ r, g.Stores r → r.versionKey ≠ e.versionKey)
    (hperm : g'.allEdges.Perm (e :: g.allEdges)) (hcount : g'.edgeCount = g.edgeCount + 1)
    (inline_lt : ∀ src i, g'.vertexMap src = some (.inline i) → i < g'.lowDegreeSegments.length)
    (inline_inj : ∀ a b i, g'.vertexMap a = some (.inline i) → g'.vertexMap b = some (.inline i) →
      a = b)
    (mem_low : ∀ i, ∀ r ∈ g'.lowDegreeSegments.getD i [], g'.vertexMap r.src = some (.inline i))
    (mem_tree : ∀ src, ∀ r ∈ (g'.highDegree.lookup src).getD [],
      r.src = src ∧ g'.vertexMap src = some .overflow) : g'.WF := by
  refine ⟨inline_lt, inline_inj, mem_low, mem_tree, ?_, ?_⟩
  · rw [(hperm.map EdgeRecord.versionKey).nodup_iff, List.map_cons, List.nodup_cons]
    refine ⟨fun hmem => ?_, hg.distinct⟩
    obtain ⟨r, hr, hkey⟩ := List.mem_map.mp hmem
    exact hnew r (mem_allEdges.mp hr) hkey
  · rw [hcount, hg.count_eq, hperm.length_eq, List.length_cons]

theorem mem_getD_concat {l : List (List EdgeRecord)} {e r : EdgeRecord} {i : ℕ} :
    r ∈ (l ++ [[e]]).getD i [] ↔ r ∈ l.getD i [] ∨ i = l.length ∧ r = e := by
  rcases lt_trichotomy i l.length with h | rfl | h
  · rw [List.getD_append _ _ _ _ h]
    exact ⟨Or.inl, fun hr => hr.resolve_right fun hr => absurd hr.1 h.ne⟩
  · rw [List.getD_append_right _ _ _ _ le_rfl, List.getD_eq_default l _ le_rfl]
    simp
  · rw [List.getD_eq_default _ _ h.le, List.getD_eq_default]
    · simp [h.ne']
    · rw [List.length_append, List.length_singleton]
      exact h

theorem mem_getD_modify {l : List (List EdgeRecord)} {e r : EdgeRecord} {i k : ℕ}
    (hk : k < l.length) :
    r ∈ (l.modify k (· ++ [e])).getD i [] ↔ r ∈ l.getD i [] ∨ i = k ∧ r = e := by
  rw [List.getD_eq_getElem?_getD, List.getElem?_modify, List.getD_eq_getElem?_getD]
  by_cases hik : k = i
  · subst hik
    simp [List.getElem?_eq_getElem hk]
  · simp [hik, Ne.symm hik]

theorem mem_getD_set_nil {l : List (List EdgeRecord)} {r : EdgeRecord} {i k : ℕ} :
    r ∈ (l.set k []).getD i [] ↔ i ≠ k ∧ r ∈ l.getD i [] := by
  rw [List.getD_eq_getElem?_getD, List.getElem?_set, List.getD_eq_getElem?_getD]
  by_cases hik : k = i
  · subst hik
    by_cases hk : k < l.length <;> simp [hk]
  · simp [hik, Ne.symm hik]

/-- A source that is new to the buffer opens a segment. -/
theorem wf_insert_none {g : MemGraph} {e : EdgeRecord} (hg : g.WF)
    (hnew : ∀ r, g.Stores r → r.versionKey ≠ e.versionKey) (hmap : g.vertexMap e.src = none) :
    (g.insert e).WF := by
  refine wf_of_perm hg hnew (perm_allEdges_insert hg hnew) ?_ ?_ ?_ ?_ ?_ <;>
    simp only [insert, hmap]
  · intro src i hi
    rw [List.length_append, List.length_singleton]
    by_cases hsrc : src = e.src
    · subst hsrc
      simp only [Function.update_self, Option.some.injEq, AdjRef.inline.injEq] at hi
      omega
    · rw [Function.update_of_ne hsrc] at hi
      exact Nat.lt_succ_of_lt (hg.inline_lt src i hi)
  · intro a b i ha hb
    -- no source had the new segment
    have hfresh : ∀ src, g.vertexMap src ≠ some (.inline g.lowDegreeSegments.length) :=
      fun src h => lt_irrefl _ (hg.inline_lt src _ h)
    simp only [Function.update_apply] at ha hb
    split at ha <;> split at hb
    · simp_all
    · simp only [Option.some.injEq, AdjRef.inline.injEq] at ha
      exact absurd (ha ▸ hb) (hfresh b)
    · simp only [Option.some.injEq, AdjRef.inline.injEq] at hb
      exact absurd (hb ▸ ha) (hfresh a)
    · exact hg.inline_inj a b i ha hb
  · intro i r hr
    rcases mem_getD_concat.mp hr with hr | ⟨rfl, rfl⟩
    · have h := hg.mem_low i r hr
      rw [Function.update_of_ne (fun hsrc => by simp [hsrc, hmap] at h), h]
    · rw [Function.update_self]
  · intro src r hr
    obtain ⟨hsrc, h⟩ := hg.mem_tree src r hr
    exact ⟨hsrc, by rw [Function.update_of_ne (fun hs => by simp [hs, hmap] at h), h]⟩

/-- A segment with room takes the record in. -/
theorem wf_insert_inline {g : MemGraph} {e : EdgeRecord} (hg : g.WF)
    (hnew : ∀ r, g.Stores r → r.versionKey ≠ e.versionKey) {k : ℕ}
    (hmap : g.vertexMap e.src = some (.inline k))
    (hlen : (g.lowDegreeSegments.getD k []).length < g.inlineSegmentCapacity) :
    (g.insert e).WF := by
  refine wf_of_perm hg hnew (perm_allEdges_insert hg hnew) ?_ ?_ ?_ ?_ ?_ <;>
    simp only [insert, hmap, hlen, if_true]
  · intro src i hi
    rw [List.length_modify]
    exact hg.inline_lt src i hi
  · exact hg.inline_inj
  · intro i r hr
    rcases (mem_getD_modify (hg.inline_lt e.src k hmap)).mp hr with hr | ⟨rfl, rfl⟩
    · exact hg.mem_low i r hr
    · exact hmap
  · exact hg.mem_tree

/-- A full segment is emptied, and its source continues in a tree. -/
theorem wf_insert_full {g : MemGraph} {e : EdgeRecord} (hg : g.WF)
    (hnew : ∀ r, g.Stores r → r.versionKey ≠ e.versionKey) {k : ℕ}
    (hmap : g.vertexMap e.src = some (.inline k))
    (hlen : ¬ (g.lowDegreeSegments.getD k []).length < g.inlineSegmentCapacity) :
    (g.insert e).WF := by
  refine wf_of_perm hg hnew (perm_allEdges_insert hg hnew) ?_ ?_ ?_ ?_ ?_ <;>
    simp only [insert, hmap, hlen, if_false]
  · intro src i hi
    rw [List.length_set]
    simp only [Function.update_apply] at hi
    split at hi
    · simp at hi
    · exact hg.inline_lt src i hi
  · intro a b i ha hb
    simp only [Function.update_apply] at ha hb
    split at ha
    · simp at ha
    · split at hb
      · simp at hb
      · exact hg.inline_inj a b i ha hb
  · intro i r hr
    -- the emptied segment holds nothing, and no other one has changed
    obtain ⟨hik, hr⟩ := mem_getD_set_nil.mp hr
    have h := hg.mem_low i r hr
    rw [Function.update_of_ne (fun hsrc => ?_), h]
    rw [hsrc, hmap, Option.some.injEq, AdjRef.inline.injEq] at h
    exact hik h.symm
  · intro src r hr
    by_cases hsrc : src = e.src
    · subst hsrc
      rw [AList.lookup_insert, Option.getD_some] at hr
      refine ⟨?_, Function.update_self ..⟩
      rcases mem_of_mem_insertByKey hr with rfl | hr
      · rfl
      · rcases mem_of_mem_foldl_treeInsert hr with hr | hr
        · exact (hg.mem_tree _ r hr).1
        · exact hg.inline_inj _ _ k (hg.mem_low k r hr) hmap
    · rw [AList.lookup_insert_ne hsrc] at hr
      rw [Function.update_of_ne hsrc]
      exact hg.mem_tree src r hr

/-- A source that has a tree stays there. -/
theorem wf_insert_overflow {g : MemGraph} {e : EdgeRecord} (hg : g.WF)
    (hnew : ∀ r, g.Stores r → r.versionKey ≠ e.versionKey)
    (hmap : g.vertexMap e.src = some .overflow) : (g.insert e).WF := by
  refine wf_of_perm hg hnew (perm_allEdges_insert hg hnew) ?_ ?_ ?_ ?_ ?_ <;>
    simp only [insert, hmap]
  · exact hg.inline_lt
  · exact hg.inline_inj
  · exact hg.mem_low
  · intro src r hr
    by_cases hsrc : src = e.src
    · subst hsrc
      rw [AList.lookup_insert, Option.getD_some] at hr
      rcases mem_of_mem_insertByKey hr with rfl | hr
      · exact ⟨rfl, hmap⟩
      · exact hg.mem_tree _ r hr
    · rw [AList.lookup_insert_ne hsrc] at hr
      exact hg.mem_tree src r hr

/-- **Insertion.** Inserting a record that differs from every stored one in source, type,
destination or timestamp keeps the buffer well formed and adds exactly that record. -/
theorem insert_spec {g : MemGraph} {e : EdgeRecord} (hg : g.WF)
    (hnew : ∀ r, g.Stores r → r.versionKey ≠ e.versionKey) :
    (g.insert e).WF ∧ ∀ r, (g.insert e).Stores r ↔ g.Stores r ∨ r = e := by
  constructor
  · cases hmap : g.vertexMap e.src with
    | none => exact wf_insert_none hg hnew hmap
    | some ref =>
        cases ref with
        | inline k =>
            by_cases hlen : (g.lowDegreeSegments.getD k []).length < g.inlineSegmentCapacity
            · exact wf_insert_inline hg hnew hmap hlen
            · exact wf_insert_full hg hnew hmap hlen
        | overflow => exact wf_insert_overflow hg hnew hmap
  · intro r
    rw [← mem_allEdges, (perm_allEdges_insert hg hnew).mem_iff, List.mem_cons, mem_allEdges,
      or_comm]

/-! ## A sequence of insertions -/

/-- The records of `src` live there and nowhere else, and no others live there. -/
def LivesIn (g : MemGraph) (src : VertexId) : AdjRef → Prop
  | .inline i => g.vertexMap src = some (.inline i) ∧
      (∀ r ∈ g.lowDegreeSegments.getD i [], r.src = src) ∧
      (∀ j, ∀ r ∈ g.lowDegreeSegments.getD j [], r.src = src → j = i) ∧
      ∀ src', ∀ r ∈ (g.highDegree.lookup src').getD [], r.src ≠ src
  | .overflow => g.vertexMap src = some .overflow ∧
      (∀ r ∈ (g.highDegree.lookup src).getD [], r.src = src) ∧
      (∀ src', ∀ r ∈ (g.highDegree.lookup src').getD [], r.src = src → src' = src) ∧
      ∀ i, ∀ r ∈ g.lowDegreeSegments.getD i [], r.src ≠ src

/-- A source has one representation at most. -/
theorem LivesIn.unique {g : MemGraph} {src : VertexId} {ref ref' : AdjRef} (h : g.LivesIn src ref)
    (h' : g.LivesIn src ref') : ref = ref' := by
  have hmap : ∀ {ref}, g.LivesIn src ref → g.vertexMap src = some ref := by
    intro ref h
    cases ref with
    | inline i => exact h.1
    | overflow => exact h.1
  exact Option.some.inj ((hmap h).symm.trans (hmap h'))

/-- **Every source with a record has exactly one representation.** -/
theorem WF.existsUnique_livesIn {g : MemGraph} (hg : g.WF) {r : EdgeRecord} (hr : g.Stores r) :
    ∃! ref, g.LivesIn r.src ref := by
  suffices h : ∃ ref, g.LivesIn r.src ref by
    obtain ⟨ref, h⟩ := h
    exact ⟨ref, h, fun ref' h' => h'.unique h⟩
  rcases hr with ⟨i, hr⟩ | ⟨src, hr⟩
  · have hmap := hg.mem_low i r hr
    refine ⟨.inline i, hmap, fun r' hr' => ?_, fun j r' hr' hsrc => ?_, fun src' r' hr' hsrc => ?_⟩
    · exact hg.inline_inj _ _ i (hg.mem_low i r' hr') hmap
    · have hmap' := hg.mem_low j r' hr'
      rw [hsrc, hmap] at hmap'
      cases hmap'
      rfl
    · obtain ⟨hsrc', hmap'⟩ := hg.mem_tree src' r' hr'
      rw [← hsrc', hsrc, hmap] at hmap'
      cases hmap'
  · obtain ⟨rfl, hmap⟩ := hg.mem_tree src r hr
    refine ⟨.overflow, hmap, fun r' hr' => ?_, fun src' r' hr' hsrc => ?_, fun i r' hr' hsrc => ?_⟩
    · exact (hg.mem_tree r.src r' hr').1
    · exact (hg.mem_tree src' r' hr').1.symm.trans hsrc
    · have hmap' := hg.mem_low i r' hr'
      rw [hsrc, hmap] at hmap'
      cases hmap'

/-- **Run lemma.** Insertions of distinct records store these records. -/
theorem foldl_insert_spec (capacityBytes inlineSegmentCapacity : Nat) (records : List EdgeRecord)
    (hdistinct : (records.map EdgeRecord.versionKey).Nodup) :
    (records.foldl insert (new capacityBytes inlineSegmentCapacity)).WF ∧
      ∀ r, (records.foldl insert (new capacityBytes inlineSegmentCapacity)).Stores r ↔
        r ∈ records := by
  induction records using List.reverseRecOn with
  | nil => exact ⟨wf_new _ _, fun r => iff_of_false (not_stores_new _ _ r) List.not_mem_nil⟩
  | append_singleton records r ih =>
      rw [List.map_append, List.nodup_append'] at hdistinct
      obtain ⟨hrecords, -, hdisjoint⟩ := hdistinct
      obtain ⟨hwf, hstores⟩ := ih hrecords
      have hnew : ∀ r', (records.foldl insert (new capacityBytes inlineSegmentCapacity)).Stores r' →
          r'.versionKey ≠ r.versionKey := by
        intro r' hr' hkey
        have hmem := List.mem_map_of_mem (f := EdgeRecord.versionKey) ((hstores r').mp hr')
        exact hdisjoint hmem (hkey ▸ List.mem_singleton_self _)
      obtain ⟨hwf', hstores'⟩ := insert_spec hwf hnew
      rw [List.foldl_append, List.foldl_cons, List.foldl_nil]
      refine ⟨hwf', fun r' => ?_⟩
      rw [hstores', hstores, List.mem_append, List.mem_singleton]

/-- The records of a source are read once each. -/
theorem nodup_getEdgesForSrc {g : MemGraph} (hg : g.WF) (src : VertexId) :
    (g.getEdgesForSrc src).Nodup := by
  have hall : g.allEdges.Nodup := List.Nodup.of_map _ hg.distinct
  obtain ⟨hlow, hhigh, -⟩ := List.nodup_append'.mp hall
  rw [getEdgesForSrc]
  split
  · exact List.nodup_nil
  · rename_i i hi
    rw [List.getD_eq_getElem _ _ (hg.inline_lt src i hi)]
    exact (List.nodup_flatten.mp hlow).1 _ (List.getElem_mem _)
  · cases hlookup : g.highDegree.lookup src with
    | none => exact List.nodup_nil
    | some tree =>
        refine (List.nodup_flatten.mp hhigh).1 tree ?_
        exact List.mem_map.mpr ⟨⟨src, tree⟩, AList.mem_lookup_iff.mp hlookup, rfl⟩

/-- **A buffer holds what was inserted**, whatever the capacity of its segments: each source reads as
its own records, everything together as the sorted records, and no source is split. -/
theorem insertions_faithful (capacityBytes inlineSegmentCapacity : Nat) (records : List EdgeRecord)
    (hdistinct : (records.map EdgeRecord.versionKey).Nodup) :
    let g := records.foldl insert (new capacityBytes inlineSegmentCapacity)
    (∀ src, (g.getEdgesForSrc src).Perm (records.filter fun r => r.src = src)) ∧
      g.allEdgesSorted = sortByKey EdgeRecord.versionKey records ∧
      g.edgeCount = g.allEdgesSorted.length ∧ (g.isEmpty = true ↔ records = []) ∧
      ∀ r ∈ records, ∃! ref, g.LivesIn r.src ref := by
  intro g
  obtain ⟨hwf, hstores⟩ : g.WF ∧ ∀ r, g.Stores r ↔ r ∈ records :=
    foldl_insert_spec capacityBytes inlineSegmentCapacity records hdistinct
  have hrecords : records.Nodup := List.Nodup.of_map _ hdistinct
  have hsorted : g.allEdgesSorted = sortByKey EdgeRecord.versionKey records := by
    refine eq_of_ascending_of_mem_iff (pairwise_lt_sortByKey (List.pairwise_map.mp hwf.distinct))
      (pairwise_lt_sortByKey (List.pairwise_map.mp hdistinct)) fun r => ?_
    rw [mem_allEdgesSorted, hstores, mem_sortByKey]
  refine ⟨fun src => ?_, hsorted, ?_, ?_, fun r hr => hwf.existsUnique_livesIn ((hstores r).mpr hr)⟩
  · refine (List.perm_ext_iff_of_nodup (nodup_getEdgesForSrc hwf src) (hrecords.filter _)).mpr ?_
    intro r
    rw [mem_getEdgesForSrc hwf, hstores, List.mem_filter, decide_eq_true_iff]
  · rw [hwf.count_eq, allEdgesSorted, length_sortByKey]
  · rw [isEmpty_iff hwf, List.eq_nil_iff_forall_not_mem]
    exact forall_congr' fun r => (hstores r).not

/-- Three records of one source, with room for one in its segment. -/
theorem insertions_faithful_overflow :
    let records := [EdgeRecord.insert 1 2 1 1, EdgeRecord.insert 1 3 1 2, EdgeRecord.insert 2 3 1 3]
    ((records.foldl insert (new 4096 1)).getEdgesForSrc 1).Perm
      (records.filter fun r => r.src = 1) := by
  intro records
  exact (insertions_faithful 4096 1 records (by decide)).1 1

end MemGraph

end LsmGraph
