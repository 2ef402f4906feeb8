import LsmGraph.Snb.UpdateCache

/-! # The builder and the engine, fed with one stream

`insert_forward_reverse` inserts an edge into the engine and records it, with the timestamp that came
back, in an `AdjacencyBuilder`. An `Importer` is the session and the builder side by side, with the
insertions its current call has still to make; flushes and compactions may come between any two of
them. In every state reached the builder would build the adjacency of a scan (`build_eq_scan`). The
second half is about one builder that goes on from the result of another
(`build_from_adjacency`). -/

namespace LsmGraph

open KeyedSort ErrorState Transition AdjacencyBuilder

/-! ## The builder with its statistics -/

/-- `AdjacencyBuildStats`. -/
structure AdjacencyBuildStats where
  groups : Nat
  directedEdges : Nat
  visibleEdges : Nat
  duplicateEdgesRemoved : Nat
  deriving DecidableEq, Repr

/-- `AdjacencyBuilder` with the counter of its records, and the keys of its map in some order. -/
structure CountedBuilder extends AdjacencyBuilder where
  keys : List AdjacencyKey
  directedEdges : Nat

namespace CountedBuilder

def empty : CountedBuilder where
  toAdjacencyBuilder := AdjacencyBuilder.empty
  keys := []
  directedEdges := 0

def recordEdge (b : CountedBuilder) (src : VertexId) (edgeType : EdgeType) (dst : VertexId)
    (ts : Timestamp) : CountedBuilder where
  toAdjacencyBuilder := b.toAdjacencyBuilder.recordEdge src edgeType dst ts
  keys := if (src, edgeType) ∈ b.keys then b.keys else b.keys ++ [(src, edgeType)]
  directedEdges := b.directedEdges + 1

/-- The entries of a group. -/
def entries (b : CountedBuilder) (key : AdjacencyKey) : List (VertexId × Timestamp) :=
  (b.grouped key).getD []

/-- The statistics `build` returns beside the map. -/
def stats (b : CountedBuilder) : AdjacencyBuildStats where
  groups := b.keys.length
  directedEdges := b.directedEdges
  visibleEdges := (b.keys.map fun key => (buildGroup (b.entries key)).length).sum
  duplicateEdgesRemoved :=
    (b.keys.map fun key => (b.entries key).length - (buildGroup (b.entries key)).length).sum

/-- The keys are those of the map, and the counter is the number of its entries. -/
structure Counted (b : CountedBuilder) : Prop where
  nodup : b.keys.Nodup
  mem_keys : ∀ key, key ∈ b.keys ↔ b.grouped key ≠ none
  directedEdges_eq : b.directedEdges = (b.keys.map fun key => (b.entries key).length).sum

theorem counted_empty : empty.Counted where
  nodup := List.nodup_nil
  mem_keys _ := iff_of_false List.not_mem_nil fun h => h rfl
  directedEdges_eq := rfl

theorem entries_recordEdge_self (b : CountedBuilder) (src : VertexId) (edgeType : EdgeType)
    (dst : VertexId) (ts : Timestamp) :
    (b.recordEdge src edgeType dst ts).entries (src, edgeType) =
      b.entries (src, edgeType) ++ [(dst, ts)] := by
  simp [entries, recordEdge, AdjacencyBuilder.recordEdge]

theorem grouped_recordEdge_of_ne (b : CountedBuilder) {src : VertexId} {edgeType : EdgeType}
    (dst : VertexId) (ts : Timestamp) {key : AdjacencyKey} (h : key ≠ (src, edgeType)) :
    (b.recordEdge src edgeType dst ts).grouped key = b.grouped key :=
  Function.update_of_ne h _ _

theorem sum_map_update {keys : List AdjacencyKey} (hnodup : keys.Nodup) {f g : AdjacencyKey → Nat}
    {key : AdjacencyKey} (hkey : key ∈ keys) (hself : g key = f key + 1)
    (hother : ∀ k, k ≠ key → g k = f k) : (keys.map g).sum = (keys.map f).sum + 1 := by
  induction keys with
  | nil => exact absurd hkey List.not_mem_nil
  | cons k keys ih =>
      obtain ⟨hk, hnodup⟩ := List.nodup_cons.mp hnodup
      rw [List.map_cons, List.map_cons, List.sum_cons, List.sum_cons]
      rcases List.mem_cons.mp hkey with rfl | hkey
      · have hrest : keys.map g = keys.map f :=
          List.map_congr_left fun k hmem => hother k fun heq => hk (heq ▸ hmem)
        rw [hself, hrest]
        omega
      · rw [hother k fun heq => hk (heq ▸ hkey), ih hnodup hkey]
        omega

theorem Counted.recordEdge {b : CountedBuilder} (h : b.Counted) (src : VertexId)
    (edgeType : EdgeType) (dst : VertexId) (ts : Timestamp) :
    (b.recordEdge src edgeType dst ts).Counted := by
  have hself : ((b.recordEdge src edgeType dst ts).entries (src, edgeType)).length =
      (b.entries (src, edgeType)).length + 1 := by
    rw [entries_recordEdge_self, List.length_append]
    rfl
  have hother : ∀ key, key ≠ (src, edgeType) →
      ((b.recordEdge src edgeType dst ts).entries key).length = (b.entries key).length := by
    intro key hne
    rw [entries, grouped_recordEdge_of_ne b dst ts hne, entries]
  have hgrouped : ∀ key, (b.recordEdge src edgeType dst ts).grouped key ≠ none ↔
      key = (src, edgeType) ∨ b.grouped key ≠ none := by
    intro key
    by_cases hne : key = (src, edgeType)
    · subst hne
      simp [CountedBuilder.recordEdge, AdjacencyBuilder.recordEdge]
    · rw [grouped_recordEdge_of_ne b dst ts hne]
      simp [hne]
  have hkeys : (b.recordEdge src edgeType dst ts).keys =
      if (src, edgeType) ∈ b.keys then b.keys else b.keys ++ [(src, edgeType)] := rfl
  by_cases hmem : (src, edgeType) ∈ b.keys
  · -- a key met before: its list grows by one
    rw [if_pos hmem] at hkeys
    refine ⟨hkeys ▸ h.nodup, fun key => ?_, ?_⟩
    · rw [hkeys, h.mem_keys, hgrouped]
      exact ⟨Or.inr, fun hkey => hkey.elim (fun heq => heq ▸ (h.mem_keys _).mp hmem) id⟩
    · rw [hkeys, sum_map_update h.nodup hmem hself hother, ← h.directedEdges_eq]
      rfl
  · -- a new key: its list was empty, and no other one changes
    rw [if_neg hmem] at hkeys
    have hold : (b.keys.map fun key => ((b.recordEdge src edgeType dst ts).entries key).length) =
        b.keys.map fun key => (b.entries key).length :=
      List.map_congr_left fun key hkey => hother key fun heq => hmem (heq ▸ hkey)
    have hnone : b.entries (src, edgeType) = [] := by
      rw [entries, not_ne_iff.mp fun hne => hmem ((h.mem_keys _).mpr hne)]
      rfl
    refine ⟨?_, fun key => ?_, ?_⟩
    · rw [hkeys]
      exact List.nodup_append'.mpr ⟨h.nodup, List.nodup_singleton _, by simpa using hmem⟩
    · rw [hkeys, List.mem_append, List.mem_singleton, h.mem_keys, hgrouped, or_comm]
    · rw [hkeys, List.map_append, List.sum_append, hold, ← h.directedEdges_eq, List.map_singleton,
        List.sum_singleton, hself, hnone]
      rfl

/-- A group does not get longer. -/
theorem length_buildGroup_le (entries : List (VertexId × Timestamp)) :
    (buildGroup entries).length ≤ entries.length := by
  rw [buildGroup_eq, List.length_map, length_sortByKey]
  exact ((firstByKey_sublist Prod.fst [] _).length_le).trans (length_sortByKey _ _).le

/-- **The statistics add up.** -/
theorem Counted.directedEdges_stats {b : CountedBuilder} (h : b.Counted) :
    b.stats.directedEdges = b.stats.visibleEdges + b.stats.duplicateEdgesRemoved := by
  rw [stats, h.directedEdges_eq, ← List.sum_map_add]
  refine congrArg List.sum (List.map_congr_left fun key _ => ?_)
  have hle := length_buildGroup_le (b.entries key)
  omega

end CountedBuilder

/-! ## Importing -/

/-- An import under way: the session, the builder, and the insertions of the current call that are
still to make. -/
structure Importer where
  session : Session
  builder : CountedBuilder
  pending : List EdgeInsertion

namespace Importer

/-- A step of an import. -/
inductive Action
  /-- `insert_forward_reverse` is called. -/
  | call (c : EdgeCall)
  /-- It makes its next insertion and records it. -/
  | insert
  /-- A step of the engine between two insertions. -/
  | engine (op : Op)

/-- A step of the engine that neither writes an edge nor reopens the store: a flush, a compaction or
a read. -/
def isEngineWork : Op → Bool
  | .insertEdge _ _ _ | .deleteEdge _ _ _ | .reopen _ => false
  | _ => true

/-- One step, if it is possible. The builder gets the timestamp that `insert_edge` returned. -/
def step (m : Importer) : Action → Option Importer
  | .call c => if m.pending = [] then some { m with pending := c.insertions } else none
  | .insert =>
      match m.pending with
      | [] => none
      | e :: rest =>
          match Engine.insertEdge e.src e.dst e.edgeType m.session.engine,
            m.session.step (Session.insertOp e) with
          | .ok ts _, some session =>
              some ⟨session, m.builder.recordEdge e.src e.edgeType e.dst ts, rest⟩
          | _, _ => none
  | .engine op =>
      if isEngineWork op then (m.session.step op).map fun session => { m with session := session }
      else none

/-- An import into an empty store. -/
def start (session : Session) : Importer := ⟨session, CountedBuilder.empty, []⟩

/-- The builder holds the edges of the history, and nothing was lost or deleted. -/
structure Streams (m : Importer) : Prop where
  inv : m.session.Inv
  history_eq : m.session.history = m.session.log
  marker_insert : ∀ r ∈ m.session.log, r.marker = .insert
  builder_eq : m.builder.toAdjacencyBuilder = builderOf m.session.log
  counted : m.builder.Counted

theorem streams_start {config : LsmGraphConfig} {x₀ : Session}
    (hcreate : Session.create config = some x₀) : (start x₀).Streams := by
  have hinv := Session.inv_create hcreate
  rw [Session.create] at hcreate
  split at hcreate
  · rw [Option.some.injEq] at hcreate
    subst hcreate
    exact ⟨hinv, rfl, fun r hr => absurd hr List.not_mem_nil, rfl, CountedBuilder.counted_empty⟩
  · cases hcreate

theorem builderOf_append_singleton (edges : List EdgeRecord) (r : EdgeRecord) :
    builderOf (edges ++ [r]) = (builderOf edges).recordEdge r.src r.edgeType r.dst r.ts :=
  List.foldl_append

theorem logs_afterOk {x y : Session} {done : Client} {α : Type}
    {result : EStateM.Result EngineError Engine α} (hy : x.afterOk done result = some y) :
    y.history = x.history ∧ y.log = x.log := by
  cases result with
  | ok a e =>
      rw [Session.afterOk, Option.some.injEq] at hy
      exact hy ▸ ⟨rfl, rfl⟩
  | error err e => cases hy

theorem logs_afterMaintenance {x y : Session} {done : Client} {α : Type}
    {result : EStateM.Result EngineError Engine α} (hy : x.afterMaintenance done result = some y) :
    y.history = x.history ∧ y.log = x.log := by
  cases result with
  | ok a e =>
      rw [Session.afterMaintenance, Option.some.injEq] at hy
      exact hy ▸ ⟨rfl, rfl⟩
  | error err e =>
      cases err with
      | io =>
          rw [Session.afterMaintenance, Option.some.injEq] at hy
          exact hy ▸ ⟨rfl, rfl⟩
      | blocked | decode | overflow => cases hy

/-- The engine's own work leaves the operations carried out as they are. -/
theorem logs_of_isEngineWork {x y : Session} {op : Op} (hop : isEngineWork op = true)
    (hy : x.step op = some y) : y.history = x.history ∧ y.log = x.log := by
  cases op with
  | insertEdge | deleteEdge | reopen => exact absurd hop Bool.false_ne_true
  | getNeighbors src edgeType snapshot => exact logs_afterOk hy
  | beginFlushActive =>
      rw [Session.step, Option.ite_none_left_eq_some] at hy
      exact logs_afterOk hy.2
  | runFlushTask memgraph =>
      rw [Session.step, Option.ite_none_right_eq_some] at hy
      exact logs_afterOk hy.2
  | finishFlushActive fault =>
      rw [Session.step, Option.ite_none_right_eq_some] at hy
      exact logs_afterMaintenance hy.2
  | compactL0ToL1 | compactL0PartitionToL1 | compactL0RangeToL1 =>
      rw [Session.step, Option.ite_none_left_eq_some] at hy
      exact logs_afterMaintenance hy.2

/-- **Step lemma.** An insertion adds one edge to the history and to the builder, and nothing else
does. -/
theorem streams_step {m m' : Importer} (h : m.Streams) {action : Action}
    (hstep : m.step action = some m') : m'.Streams := by
  cases action with
  | call c =>
      rw [step, Option.ite_none_right_eq_some, Option.some.injEq] at hstep
      obtain ⟨-, rfl⟩ := hstep
      exact ⟨h.inv, h.history_eq, h.marker_insert, h.builder_eq, h.counted⟩
  | insert =>
      rw [step] at hstep
      split at hstep
      · cases hstep
      rename_i e rest hpending
      split at hstep
      · rename_i ts engine session hts hsession
        rw [Option.some.injEq] at hstep
        subst hstep
        obtain ⟨hhistory, -, -, hlog, hrun⟩ := Session.insertOp_spec h.inv hsession
        rw [hrun, EStateM.Result.ok.injEq] at hts
        obtain ⟨rfl, -⟩ := hts
        exact
          { inv := Session.inv_step h.inv hsession
            history_eq := by rw [hhistory, hlog, h.history_eq]
            marker_insert := fun r hr => by
              rw [hlog, List.mem_append, List.mem_singleton] at hr
              exact hr.elim (h.marker_insert r) fun heq => heq ▸ rfl
            builder_eq := by
              rw [hlog, builderOf_append_singleton, ← h.builder_eq]
              rfl
            counted := h.counted.recordEdge _ _ _ _ }
      · cases hstep
  | engine op =>
      rw [step, Option.ite_none_right_eq_some] at hstep
      obtain ⟨hop, hstep⟩ := hstep
      obtain ⟨session, hsession, rfl⟩ := Option.map_eq_some_iff.mp hstep
      obtain ⟨hhistory, hlog⟩ := logs_of_isEngineWork hop hsession
      exact ⟨Session.inv_step h.inv hsession, by rw [hhistory, hlog, h.history_eq],
        hlog ▸ h.marker_insert, hlog ▸ h.builder_eq, h.counted⟩

/-- The newest entries of a stream of insertions are the visible ones. -/
theorem buildGroup_entriesUnder {log : List EdgeRecord} (hinsert : ∀ r ∈ log, r.marker = .insert)
    {key : AdjacencyKey} {D : List (VertexId × Timestamp)} (hD : VisibleEntries log key D) :
    buildGroup (entriesUnder key log) = buildGroup D := by
  refine buildGroup_congr fun a => ?_
  have hright : a ∈ newestEntries D ↔ a ∈ D := by
    rw [mem_newestEntries]
    refine and_iff_left_of_imp fun ha b hb hdst => ?_
    exact ((hD.mem_iff a).mp ha).2 _ ((hD.mem_iff b).mp hb).1
      (EdgeRecord.key_eq_iff.mpr ⟨rfl, rfl, hdst⟩)
  rw [hright, hD.mem_iff, mem_newestEntries, mem_entriesUnder_iff hinsert]
  refine and_congr Iff.rfl ⟨fun hmax r hr hkey => ?_, fun hmax b hb hdst => ?_⟩
  · obtain ⟨hsrc, htype, hdst⟩ := EdgeRecord.key_eq_iff.mp hkey
    exact hmax (r.dst, r.ts) (mem_entriesUnder.mpr ⟨r, hr, hsrc, htype, rfl, rfl⟩) hdst
  · exact hmax _ ((mem_entriesUnder_iff hinsert).mp hb) (EdgeRecord.key_eq_iff.mpr ⟨rfl, rfl, hdst⟩)

/-- An edge inserted twice, with a flush between the two calls. -/
def twiceActions : List Action :=
  let c : EdgeCall := ⟨1, 2, .knows, .empty, true⟩
  [.call c, .insert, .insert, .engine .beginFlushActive, .engine (.runFlushTask 0),
    .engine (.finishFlushActive none), .call c, .insert, .insert]

end Importer

/-! ## Going on from a built adjacency -/

/-- A list of entries from the newest to the oldest. -/
def newestFirst (entries : List (VertexId × Timestamp)) : List (VertexId × Timestamp) :=
  sortByKey (fun a => OrderDual.toDual a.2) entries

/-- Entries with different timestamps become strictly descending. -/
theorem newestFirst_descending {entries : List (VertexId × Timestamp)}
    (hdistinct : entries.Pairwise fun a b => a.2 ≠ b.2) :
    (newestFirst entries).Pairwise fun a b => b.2 < a.2 := by
  have hkeys : entries.Pairwise fun a b => OrderDual.toDual a.2 ≠ OrderDual.toDual b.2 := hdistinct
  exact (pairwise_lt_sortByKey hkeys).imp fun hlt => OrderDual.toDual_lt_toDual.mp hlt

/-- A group of older entries and newer ones: the newer destinations, then the older ones that are
left. `h` lists the older entries from the newest to the oldest. -/
theorem buildGroup_append {older newer h : List (VertexId × Timestamp)} {ts : Timestamp}
    (hperm : h.Perm older) (hdesc : h.Pairwise fun a b => b.2 < a.2) (hle : ∀ a ∈ older, a.2 ≤ ts)
    (hdistinct : newer.Pairwise fun a b => a.2 ≠ b.2) (hlt : ∀ a ∈ newer, ts < a.2) :
    buildGroup (older ++ newer) =
      firstByKey id [] ((newestFirst newer).map Prod.fst) ++
        firstByKey id ((newestFirst newer).map Prod.fst) (h.map Prod.fst) := by
  have hnewer : (newestFirst newer).Perm newer := perm_sortByKey _ newer
  have hlisting : (newestFirst newer ++ h).Perm (older ++ newer) :=
    (hnewer.append hperm).trans List.perm_append_comm
  have hpair : (newestFirst newer ++ h).Pairwise fun a b => b.2 < a.2 := by
    refine List.pairwise_append.mpr ⟨newestFirst_descending hdistinct, hdesc, fun a ha b hb => ?_⟩
    exact (hle b (hperm.mem_iff.mp hb)).trans_lt (hlt a (hnewer.mem_iff.mp ha))
  rw [buildGroup_eq_of_perm hlisting hpair, List.map_append, firstByKey_append]
  simp

/-- The entries under a key have different timestamps if the records have. -/
theorem pairwise_entriesUnder {edges : List EdgeRecord} (h : (edges.map EdgeRecord.ts).Nodup)
    (key : AdjacencyKey) : (entriesUnder key edges).Pairwise fun a b => a.2 ≠ b.2 :=
  List.pairwise_map.mpr ((List.pairwise_map.mp h).filter _)

/-- A descending list of timestamps between `1` and `ts` has at most `ts` of them. -/
theorem length_le_of_positive {entries : List (VertexId × Timestamp)} {ts : Timestamp}
    (hdesc : entries.Pairwise fun a b => b.2 < a.2) (hrange : ∀ a ∈ entries, 1 ≤ a.2 ∧ a.2 ≤ ts) :
    entries.length ≤ ts.toNat := by
  have hzero : (entries ++ [((0, 0) : VertexId × Timestamp)]).Pairwise fun a b => b.2 < a.2 := by
    refine List.pairwise_append.mpr ⟨hdesc, List.pairwise_singleton _ _, fun a ha b hb => ?_⟩
    rw [List.mem_singleton.mp hb]
    exact lt_of_lt_of_le (by decide) (hrange a ha).1
  have hle : ∀ a ∈ entries ++ [((0, 0) : VertexId × Timestamp)], a.2 ≤ ts := by
    intro a ha
    rcases List.mem_append.mp ha with ha | ha
    · exact (hrange a ha).2
    · rw [List.mem_singleton.mp ha]
      exact UInt64.zero_le
  have hlength := length_le_of_descending hzero hle
  rw [List.length_append, List.length_singleton] at hlength
  omega

/-- Fewer existing entries than timestamps get positive ones. -/
theorem existingEntries_positive {ts : Timestamp} {dsts : List VertexId}
    (hlen : dsts.length ≤ ts.toNat) :
    (existingEntries ts dsts).Pairwise (fun a b => b.2 < a.2) ∧
      ∀ a ∈ existingEntries ts dsts, 1 ≤ a.2 ∧ a.2 ≤ ts := by
  -- one more destination would still get a smaller timestamp
  have hsucc : (dsts ++ [0]).length ≤ ts.toNat + 1 := by
    rw [List.length_append, List.length_singleton]
    omega
  obtain ⟨hle, hdesc⟩ := existingEntries_descending hsucc
  have hsplit : existingEntries ts (dsts ++ [0]) = existingEntries ts dsts ++
      [(0, saturatingSub ts (UInt64.ofNat dsts.length))] := List.mapIdx_concat
  rw [hsplit] at hle hdesc
  obtain ⟨hdesc, -, hlast⟩ := List.pairwise_append.mp hdesc
  refine ⟨hdesc, fun a ha => ⟨?_, hle a (List.mem_append_left _ ha)⟩⟩
  have hlt := hlast a ha _ (List.mem_singleton_self _)
  have hpos := UInt64.lt_iff_toNat_lt.mp hlt
  rw [UInt64.le_iff_toNat_le, UInt64.toNat_one]
  omega

/-- **Building in two stages.** A builder that starts from the adjacency of the first stream, with
timestamps counted down from `maxTs`, and records the second stream builds what one builder fed with
both streams builds; and the timestamps it makes up are different and not zero. -/
theorem build_from_adjacency {first second : List EdgeRecord} {maxTs : Timestamp}
    (hfirst : (first.map EdgeRecord.ts).Nodup) (hsecond : (second.map EdgeRecord.ts).Nodup)
    (hle : ∀ r ∈ first, 1 ≤ r.ts ∧ r.ts ≤ maxTs) (hlt : ∀ r ∈ second, maxTs < r.ts) :
    (second.foldl (fun b e => b.recordEdge e.src e.edgeType e.dst e.ts)
        (fromAdjacency (builderOf first).build maxTs)).build = (builderOf (first ++ second)).build ∧
      ∀ key dsts, (builderOf first).build key = some dsts →
        (existingEntries maxTs dsts).Pairwise (fun a b => b.2 < a.2) ∧
          ∀ a ∈ existingEntries maxTs dsts, 1 ≤ a.2 ∧ a.2 ≤ maxTs := by
  have hrange : ∀ key, ∀ a ∈ entriesUnder key first, 1 ≤ a.2 ∧ a.2 ≤ maxTs := fun key a ha => by
    obtain ⟨r, hr, -, -, -, hts⟩ := mem_entriesUnder.mp ha
    exact hts ▸ hle r hr
  have hlater : ∀ key, ∀ a ∈ entriesUnder key second, maxTs < a.2 := fun key a ha => by
    obtain ⟨r, hr, -, -, -, hts⟩ := mem_entriesUnder.mp ha
    exact hts ▸ hlt r hr
  have hperm : ∀ key, (newestFirst (entriesUnder key first)).Perm (entriesUnder key first) :=
    fun key => perm_sortByKey _ _
  have hdesc := fun key => newestFirst_descending (pairwise_entriesUnder hfirst key)
  -- the list of the first adjacency, and how long it can be
  have hlist : ∀ key, ((builderOf first).build key).getD [] =
      firstByKey id [] ((newestFirst (entriesUnder key first)).map Prod.fst) := fun key => by
    rw [getD_build, (builderOf_spec first).2, buildGroup_eq_of_perm (hperm key) (hdesc key)]
  have hlen : ∀ key, (((builderOf first).build key).getD []).length ≤ maxTs.toNat := fun key => by
    have hlength := length_le_of_positive (hdesc key) fun a ha =>
      hrange key a ((hperm key).mem_iff.mp ha)
    rw [hlist]
    refine le_trans (firstByKey_sublist id [] _).length_le ?_
    rwa [List.length_map]
  refine ⟨?_, fun key dsts hkey => existingEntries_positive ?_⟩
  · obtain ⟨hgroups, hgrouped⟩ :=
      foldl_recordEdge_spec (noEmptyGroup_fromAdjacency (builderOf first).build maxTs) second
    refine (build_eq_iff hgroups (builderOf_spec _).1).mpr fun key => ?_
    have hunder : entriesUnder key (first ++ second) =
        entriesUnder key first ++ entriesUnder key second := by
      rw [entriesUnder, List.filter_append, List.map_append, ← entriesUnder, ← entriesUnder]
    obtain ⟨hexisting, hrange'⟩ := existingEntries_positive (hlen key)
    have hdistinct := pairwise_entriesUnder hsecond key
    rw [getD_build, hgrouped, getD_grouped_fromAdjacency,
      buildGroup_append (List.Perm.refl _) hexisting (fun a ha => (hrange' a ha).2) hdistinct
        (hlater key), map_fst_existingEntries, hlist, firstByKey_firstByKey (List.nil_subset _),
      getD_build, (builderOf_spec _).2, hunder,
      buildGroup_append (hperm key) (hdesc key) (fun a ha => (hrange key a ha).2) hdistinct
        (hlater key)]
  · have hlength := hlen key
    rwa [hkey] at hlength

theorem build_from_adjacency_again :
    let first := [EdgeRecord.insert 1 7 3 1, EdgeRecord.insert 1 8 3 2]
    let second := [EdgeRecord.insert 1 7 3 5]
    (second.foldl (fun b e => b.recordEdge e.src e.edgeType e.dst e.ts)
        (fromAdjacency (builderOf first).build 2)).build = (builderOf (first ++ second)).build ∧
      ∀ key dsts, (builderOf first).build key = some dsts →
        (existingEntries 2 dsts).Pairwise (fun a b => b.2 < a.2) ∧
          ∀ a ∈ existingEntries 2 dsts, 1 ≤ a.2 ∧ a.2 ≤ 2 :=
  build_from_adjacency (by decide) (by decide) (by decide) (by decide)

end LsmGraph
