import LsmGraph.Merge
import Mathlib.Data.List.Induction
import Mathlib.Logic.Function.Basic

/-! # The edge map

What the store is for: a map from edges, that is from `(src, edge_type, dst)`, to the timestamp of
the insertion that put them there. An operation is an `EdgeRecord`; an insertion binds its edge to
its timestamp, a deletion unbinds it. The module relates the map to the newest records of the
history it was built from (`newest_insert_iff`), which is what a merge of versions computes. -/

namespace LsmGraph

abbrev EdgeKey := VertexId ×ₗ EdgeType ×ₗ VertexId

/-- The edges present, each with the timestamp of its insertion. -/
abbrev EdgeMap := EdgeKey → Option Timestamp

/-- Carry out one operation. -/
def EdgeMap.apply (m : EdgeMap) (r : EdgeRecord) : EdgeMap :=
  Function.update m r.key (if r.marker = .insert then some r.ts else none)

/-- The map after a history of operations. -/
def edgeMap (history : List EdgeRecord) : EdgeMap := history.foldl EdgeMap.apply fun _ => none

@[simp] theorem edgeMap_concat (history : List EdgeRecord) (r : EdgeRecord) :
    edgeMap (history ++ [r]) = (edgeMap history).apply r := by
  rw [edgeMap, List.foldl_append, List.foldl_cons, List.foldl_nil, edgeMap]

/-- The last operation on an edge. -/
def lastOp (history : List EdgeRecord) (k : EdgeKey) : Option EdgeRecord :=
  (history.filter fun r => r.key = k).getLast?

theorem lastOp_concat (history : List EdgeRecord) (r : EdgeRecord) (k : EdgeKey) :
    lastOp (history ++ [r]) k = if r.key = k then some r else lastOp history k := by
  unfold lastOp
  by_cases h : r.key = k <;> simp [h]

theorem lastOp_eq_none {history : List EdgeRecord} {k : EdgeKey} :
    lastOp history k = none ↔ ∀ r ∈ history, r.key ≠ k := by
  simp [lastOp]

/-- **An edge is present iff the last operation on it was an insertion.** -/
theorem edgeMap_eq_some_iff {history : List EdgeRecord} {k : EdgeKey} {ts : Timestamp} :
    edgeMap history k = some ts ↔
      ∃ r, lastOp history k = some r ∧ r.marker = .insert ∧ r.ts = ts := by
  induction history using List.reverseRecOn with
  | nil => simp [edgeMap, lastOp]
  | append_singleton history x ih =>
      rw [edgeMap_concat, EdgeMap.apply, lastOp_concat]
      by_cases hkey : x.key = k
      · subst hkey
        rw [Function.update_self, if_pos rfl]
        by_cases hmarker : x.marker = .insert <;> simp [hmarker]
      · rw [Function.update_of_ne (Ne.symm hkey), if_neg hkey, ih]

/-- Records are equal if edge, timestamp and marker are. -/
theorem EdgeRecord.eq_of_key_eq {a b : EdgeRecord} (hkey : a.key = b.key) (hts : a.ts = b.ts)
    (hmarker : a.marker = b.marker) : a = b := by
  obtain ⟨hsrc, htype, hdst⟩ := EdgeRecord.key_eq_iff.mp hkey
  cases a
  cases b
  simp only at hsrc htype hdst hts hmarker
  simp [hsrc, htype, hdst, hts, hmarker]

/-- Timestamps of a history grow. -/
abbrev Ascending (history : List EdgeRecord) : Prop := history.Pairwise fun a b => a.ts < b.ts

/-- In a history with growing timestamps no two records share one. -/
theorem Ascending.coherent {history : List EdgeRecord} (h : Ascending history) :
    Coherent {r | r ∈ history} := fun _ ha _ hb _ hts => KeyedSort.injOn_of_ascending h ha hb hts

/-- **The edges present are the newest insertions.** -/
theorem newest_insert_iff {history : List EdgeRecord} (h : Ascending history) {r : EdgeRecord} :
    Newest {x | x ∈ history} r ∧ r.marker = .insert ↔
      r.marker = .insert ∧ edgeMap history r.key = some r.ts := by
  induction history using List.reverseRecOn with
  | nil =>
      refine ⟨fun hr => absurd hr.1.1 List.not_mem_nil, fun hr => ?_⟩
      exact absurd hr.2 (by simp [edgeMap])
  | append_singleton history x ih =>
      obtain ⟨hasc, -, hlast⟩ := List.pairwise_append.mp h
      have hx : ∀ a ∈ history, a.ts < x.ts := fun a ha => hlast a ha x (List.mem_singleton_self x)
      rw [edgeMap_concat, EdgeMap.apply]
      by_cases hkey : r.key = x.key
      · -- the last operation decides about its own edge
        rw [hkey, Function.update_self]
        constructor
        · rintro ⟨⟨hr, hmax⟩, hmarker⟩
          have hle := hmax x (List.mem_append_right _ (List.mem_singleton_self x)) hkey.symm
          rcases List.mem_append.mp hr with hr | hr
          · exact absurd hle (hx r hr).not_ge
          · rw [List.mem_singleton.mp hr] at hmarker ⊢
            exact ⟨hmarker, by rw [if_pos hmarker]⟩
        · rintro ⟨hmarker, hts⟩
          by_cases hxmarker : x.marker = .insert
          · rw [if_pos hxmarker, Option.some.injEq] at hts
            have heq : r = x := EdgeRecord.eq_of_key_eq hkey hts.symm (hmarker.trans hxmarker.symm)
            subst heq
            refine ⟨⟨List.mem_append_right _ (List.mem_singleton_self r), fun a ha _ => ?_⟩, hmarker⟩
            rcases List.mem_append.mp ha with ha | ha
            · exact (hx a ha).le
            · rw [List.mem_singleton.mp ha]
          · rw [if_neg hxmarker] at hts
            exact absurd hts nofun
      · -- it leaves every other edge to the operations before it
        rw [Function.update_of_ne hkey, ← ih hasc]
        refine and_congr_left fun _ => ⟨fun ⟨hr, hmax⟩ => ⟨?_, fun a ha => ?_⟩,
          fun ⟨hr, hmax⟩ => ⟨List.mem_append_left _ hr, fun a ha hakey => ?_⟩⟩
        · rcases List.mem_append.mp hr with hr | hr
          · exact hr
          · exact absurd (congrArg EdgeRecord.key (List.mem_singleton.mp hr)) hkey
        · exact hmax a (List.mem_append_left _ ha)
        · rcases List.mem_append.mp ha with ha | ha
          · exact hmax a ha hakey
          · rw [List.mem_singleton.mp ha] at hakey
            exact absurd hakey.symm hkey

end LsmGraph
