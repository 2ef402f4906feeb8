import LsmGraph.Library.KeyedSort
import LsmGraph.Library.Versioned
import LsmGraph.Types

/-! # Merging versions

`merge_latest_records` and `merge_visible` of `graph.rs`: of the records up to a snapshot, keep the
newest of each edge, in key order; reads then drop the edges whose newest record is a tombstone. On
records that key and timestamp identify, a merge returns the `Newest` records and nothing else
(`mem_mergeLatestRecords`), in strictly ascending key order (`pairwise_mergeLatestRecords`), so it
depends on the set of its inputs only (`mergeVisible_congr`), and merging some of them first changes
nothing (`mergeVisible_mergeLatestRecords_append`). -/

namespace LsmGraph

open KeyedSort Versioned

/-- Sort order of the merge: by edge, newest first. -/
def mergeKey (e : EdgeRecord) : (VertexId ×ₗ EdgeType ×ₗ VertexId) ×ₗ Timestampᵒᵈ :=
  toLex (e.key, OrderDual.toDual e.ts)

/-- The newest record of each edge as of `snapshot`; tombstones are kept on demand. The `seen` set
of the loop takes in the key of every record, whether or not the record is pushed. -/
def mergeLatestRecords (updates : List EdgeRecord) (snapshot : SnapshotId) (keepTombstones : Bool) :
    List EdgeRecord :=
  let updates := sortByKey mergeKey (updates.filter fun e => e.ts ≤ snapshot)
  let out := (firstByKey EdgeRecord.key [] updates).filter fun e =>
    keepTombstones || e.marker == .insert
  sortByKey EdgeRecord.key out

/-- What a reader sees. -/
def mergeVisible (updates : List EdgeRecord) (snapshot : SnapshotId) : List EdgeRecord :=
  (mergeLatestRecords updates snapshot false).filter fun e => e.marker == .insert

/-! ## Records as versions -/

/-- Key and timestamp identify the records of `R`. -/
abbrev Coherent (R : Set EdgeRecord) : Prop := Versioned.Coherent EdgeRecord.key EdgeRecord.ts R

/-- `r` is the newest record of its edge in `R`. -/
abbrev Newest (R : Set EdgeRecord) (r : EdgeRecord) : Prop :=
  Versioned.Newest EdgeRecord.key EdgeRecord.ts R r

/-- The records of `R` up to a snapshot. -/
abbrev asOf (R : Set EdgeRecord) (s : SnapshotId) : Set EdgeRecord := Versioned.asOf EdgeRecord.ts R s

/-- Every record of `R` is in `C` or superseded there. -/
abbrev Covers (C R : Set EdgeRecord) : Prop := Versioned.Covers EdgeRecord.key EdgeRecord.ts C R

/-! ## Specification of the merge -/

section Merge

variable {updates updates' : List EdgeRecord} {s : SnapshotId} {keep : Bool} {r : EdgeRecord}

/-- In merge order, a record is not older than the records of its edge behind it. -/
theorem ts_le_of_mergeKey_le {a b : EdgeRecord} (h : mergeKey a ≤ mergeKey b) (hkey : a.key = b.key) :
    b.ts ≤ a.ts := by
  rcases Prod.Lex.le_iff.mp h with hlt | ⟨-, hle⟩
  · exact absurd hkey hlt.ne
  · exact hle

/-- **What a merge returns.** -/
theorem mem_mergeLatestRecords (hcoh : Coherent {e | e ∈ updates}) :
    r ∈ mergeLatestRecords updates s keep ↔
      Newest (asOf {e | e ∈ updates} s) r ∧ (keep = true ∨ r.marker = .insert) := by
  have hmem : ∀ e, e ∈ sortByKey mergeKey (updates.filter fun e => e.ts ≤ s) ↔
      e ∈ asOf {e | e ∈ updates} s := by
    intro e
    rw [mem_sortByKey, List.mem_filter, decide_eq_true_iff]
    rfl
  have hsorted := pairwise_sortByKey mergeKey (updates.filter fun e => e.ts ≤ s)
  -- the kept representative of an edge stands first in merge order, so it is the newest
  have hnewest : ∀ e, e ∈ firstByKey EdgeRecord.key []
      (sortByKey mergeKey (updates.filter fun e => e.ts ≤ s)) →
        Newest (asOf {e | e ∈ updates} s) e := by
    intro e he
    refine ⟨(hmem e).mp (mem_of_mem_firstByKey he), fun e' he' hkey => ?_⟩
    rcases rel_of_mem_firstByKey hsorted he ((hmem e').mpr he') hkey with rfl | hle
    · exact le_rfl
    · exact ts_le_of_mergeKey_le hle hkey.symm
  rw [mergeLatestRecords, mem_sortByKey, List.mem_filter, Bool.or_eq_true, beq_iff_eq]
  refine and_congr_left fun _ => ⟨hnewest r, fun hr => ?_⟩
  obtain ⟨e, he, hkey⟩ := exists_mem_firstByKey ((hmem r).mpr hr.1) (List.not_mem_nil (a := r.key))
  have hcoh' : Coherent (asOf {e | e ∈ updates} s) := hcoh.mono fun _ h => h.1
  rwa [← (hnewest e he).unique hcoh' hr hkey]

/-- A merge returns at most one record of each edge, in ascending order. -/
theorem pairwise_mergeLatestRecords (updates : List EdgeRecord) (s : SnapshotId) (keep : Bool) :
    (mergeLatestRecords updates s keep).Pairwise fun a b => a.key < b.key :=
  pairwise_lt_sortByKey ((pairwise_firstByKey EdgeRecord.key [] _).filter _)

/-- What a merge returns it was given. -/
theorem mem_of_mem_mergeLatestRecords (h : r ∈ mergeLatestRecords updates s keep) :
    r ∈ updates ∧ r.ts ≤ s := by
  rw [mergeLatestRecords, mem_sortByKey, List.mem_filter] at h
  have hr := mem_of_mem_firstByKey h.1
  rwa [mem_sortByKey, List.mem_filter, decide_eq_true_iff] at hr

/-- **What a reader sees**: the newest record of each edge as of the snapshot, unless it is a
tombstone. -/
theorem mem_mergeVisible (hcoh : Coherent {e | e ∈ updates}) :
    r ∈ mergeVisible updates s ↔ Newest (asOf {e | e ∈ updates} s) r ∧ r.marker = .insert := by
  rw [mergeVisible, List.mem_filter, mem_mergeLatestRecords hcoh, beq_iff_eq]
  simp only [Bool.false_eq_true, false_or, and_assoc, and_self]

theorem pairwise_mergeVisible (updates : List EdgeRecord) (s : SnapshotId) :
    (mergeVisible updates s).Pairwise fun a b => a.key < b.key :=
  (pairwise_mergeLatestRecords updates s false).filter _

/-- A read depends on the newest records only. -/
theorem mergeVisible_congr_newest (hcoh : Coherent {e | e ∈ updates})
    (hcoh' : Coherent {e | e ∈ updates'})
    (h : ∀ e, Newest (asOf {e | e ∈ updates} s) e ↔ Newest (asOf {e | e ∈ updates'} s) e) :
    mergeVisible updates s = mergeVisible updates' s := by
  refine eq_of_ascending_of_mem_iff (pairwise_mergeVisible updates s)
    (pairwise_mergeVisible updates' s) fun e => ?_
  rw [mem_mergeVisible hcoh, mem_mergeVisible hcoh', h]

/-- A read depends on the records only that the snapshot covers. -/
theorem mergeVisible_congr_asOf (hcoh : Coherent {e | e ∈ updates})
    (hcoh' : Coherent {e | e ∈ updates'}) (h : ∀ e, e.ts ≤ s → (e ∈ updates ↔ e ∈ updates')) :
    mergeVisible updates s = mergeVisible updates' s := by
  have hset : asOf {e | e ∈ updates} s = asOf {e | e ∈ updates'} s := by
    ext e
    exact and_congr_left (h e)
  refine mergeVisible_congr_newest hcoh hcoh' fun e => ?_
  rw [hset]

/-- **A read depends on the set of records only**, not on their order or multiplicity. -/
theorem mergeVisible_congr (hcoh : Coherent {e | e ∈ updates}) (h : ∀ e, e ∈ updates ↔ e ∈ updates') :
    mergeVisible updates s = mergeVisible updates' s :=
  mergeVisible_congr_asOf hcoh (hcoh.mono fun e he => (h e).mpr he) fun e _ => h e

/-- **Reading a part.** Merging the records whose edge satisfies `p` gives the part of the merge
that satisfies `p`. -/
theorem mergeVisible_filter {p : EdgeRecord → Bool} {K : VertexId ×ₗ EdgeType ×ₗ VertexId → Prop}
    (hp : ∀ e, p e = true ↔ K e.key) (hcoh : Coherent {e | e ∈ updates}) :
    mergeVisible (updates.filter p) s = (mergeVisible updates s).filter p := by
  refine eq_of_ascending_of_mem_iff (pairwise_mergeVisible _ s)
    ((pairwise_mergeVisible updates s).filter p) fun e => ?_
  have hset : asOf {e | e ∈ updates.filter p} s = {e | e ∈ asOf {e | e ∈ updates} s ∧ K e.key} := by
    ext e
    simp [hp, and_right_comm]
  have hcoh' : Coherent {e | e ∈ updates.filter p} := hcoh.mono fun _ h => List.mem_of_mem_filter h
  have hsep : Newest {e | e ∈ asOf {e | e ∈ updates} s ∧ K e.key} e ↔
      Newest (asOf {e | e ∈ updates} s) e ∧ K e.key := newest_sep_iff
  rw [List.mem_filter, mem_mergeVisible hcoh', mem_mergeVisible hcoh, hset, hsep, hp,
    and_right_comm]

/-- A merge as of a snapshot that bounds its input covers the input. -/
theorem covers_mergeLatestRecords (hcoh : Coherent {e | e ∈ updates}) :
    Covers {e | e ∈ mergeLatestRecords updates s true} (asOf {e | e ∈ updates} s) := by
  rintro r ⟨hr, hrs⟩
  have hmem : r ∈ sortByKey mergeKey (updates.filter fun e => e.ts ≤ s) := by
    rw [mem_sortByKey, List.mem_filter, decide_eq_true_iff]
    exact ⟨hr, hrs⟩
  obtain ⟨e, he, hkey⟩ := exists_mem_firstByKey hmem (List.not_mem_nil (a := r.key))
  have hout : e ∈ mergeLatestRecords updates s true := by
    rw [mergeLatestRecords, mem_sortByKey, List.mem_filter]
    exact ⟨he, rfl⟩
  exact ⟨e, hout, hkey, ((mem_mergeLatestRecords hcoh).mp hout).1.2 r ⟨hr, hrs⟩ hkey.symm⟩

/-! ## Merging in two rounds -/

/-- **A compaction is invisible** to snapshots from its own on: merging some of the records first,
and reading the result with the others, is reading all of them. -/
theorem mergeVisible_mergeLatestRecords_append {A B : List EdgeRecord} {S : SnapshotId}
    (hcoh : Coherent {e | e ∈ A ++ B}) (hS : ∀ e ∈ A, e.ts ≤ S) (hs : S ≤ s) :
    mergeVisible (mergeLatestRecords A S true ++ B) s = mergeVisible (A ++ B) s := by
  have hsub : ∀ e ∈ mergeLatestRecords A S true ++ B, e ∈ A ++ B := by
    intro e he
    rcases List.mem_append.mp he with he | he
    · exact List.mem_append_left B (mem_of_mem_mergeLatestRecords he).1
    · exact List.mem_append_right A he
  have hcohA : Coherent {e | e ∈ A} := hcoh.mono fun e he => List.mem_append_left B he
  -- what the first round drops is superseded by what it keeps, and both are seen as of `s`
  have hcovers : Covers (asOf {e | e ∈ mergeLatestRecords A S true ++ B} s)
      (asOf {e | e ∈ A ++ B} s) := by
    rintro e ⟨he, hes⟩
    rcases List.mem_append.mp he with he | he
    · obtain ⟨e', he', hkey, hts⟩ := covers_mergeLatestRecords hcohA e ⟨he, hS e he⟩
      have hle : e'.ts ≤ s := (mem_of_mem_mergeLatestRecords he').2.trans hs
      exact ⟨e', ⟨List.mem_append_left B he', hle⟩, hkey, hts⟩
    · exact ⟨e, ⟨List.mem_append_right _ he, hes⟩, rfl, le_rfl⟩
  refine mergeVisible_congr_newest (hcoh.mono hsub) hcoh ?_
  exact newest_iff_of_covers (hcoh.mono fun _ he => he.1) (fun e he => ⟨hsub e he.1, he.2⟩) hcovers

/-- **The laws of merging.** Records of which key and timestamp identify each can be merged in two
rounds and in any order; and a merge returns, in ascending order, the newest record of each edge as of
the snapshot, with a newest tombstone on demand only. -/
theorem merge_laws {A B : List EdgeRecord} (hcoh : Coherent {e | e ∈ A ++ B}) :
    (∀ S s, (∀ e ∈ A, e.ts ≤ S) → S ≤ s →
      mergeVisible (mergeLatestRecords A S true ++ B) s = mergeVisible (A ++ B) s) ∧
    (∀ updates s, updates.Perm (A ++ B) → mergeVisible updates s = mergeVisible (A ++ B) s) ∧
    ∀ s keep, (mergeLatestRecords (A ++ B) s keep).Pairwise (fun a b => a.key < b.key) ∧
      ∀ r, r ∈ mergeLatestRecords (A ++ B) s keep ↔
        Newest (asOf {e | e ∈ A ++ B} s) r ∧ (keep = true ∨ r.marker = .insert) := by
  refine ⟨fun S s hS hs => mergeVisible_mergeLatestRecords_append hcoh hS hs,
    fun updates s hperm => (mergeVisible_congr hcoh fun e => hperm.mem_iff.symm).symm,
    fun s keep => ⟨pairwise_mergeLatestRecords _ s keep, fun r => mem_mergeLatestRecords hcoh⟩⟩

/-- An edge is inserted and deleted, and the insertion is merged alone. -/
theorem merge_laws_deleted :
    mergeVisible (mergeLatestRecords [EdgeRecord.insert 1 2 1 1] 1 true ++
      [EdgeRecord.delete 1 2 1 2]) 2 =
        mergeVisible ([EdgeRecord.insert 1 2 1 1] ++ [EdgeRecord.delete 1 2 1 2]) 2 := by
  have hcoh : Coherent {e | e ∈ [EdgeRecord.insert 1 2 1 1] ++ [EdgeRecord.delete 1 2 1 2]} := by
    intro r hr r' hr' hkey hts
    simp only [List.cons_append, List.nil_append, List.mem_cons, List.not_mem_nil, or_false] at hr hr'
    rcases hr with rfl | rfl
    · rcases hr' with rfl | rfl
      · rfl
      · exact absurd hts (by decide)
    · rcases hr' with rfl | rfl
      · exact absurd hts (by decide)
      · rfl
  exact (merge_laws hcoh).1 1 2 (by decide) (by decide)

end Merge

end LsmGraph
