import LsmGraph.Concurrent.Reached

/-! # Repeatable reads

As long as no flush and no compaction takes a step, a lookup merges all records of its source that
were inserted (`Steady.found_eq`): its version was pinned under the lock of the source, and no write
of the source gets this lock before it has read. A snapshot is repeatable from the first read on if no
write of the source that it covers is still to be inserted then (`found_again`). A write that has
drawn its timestamp and not got the lock is enough for the contrary (`read_changed`). -/

namespace LsmGraph

open KeyedSort ErrorState CsrReader Transition

variable {e : Engine} {K K' : Set CsrSegmentMeta} {v : Version} {src : VertexId}
  {edgeType : Option EdgeType} {s : SnapshotId}

/-- The step is one of a flush or a compaction. -/
def Action.isJob : Action → Bool
  | .job _ _ => true
  | _ => false

/-- What a lookup asks for. -/
def Call.asked : Call → Option (VertexId × Option EdgeType × SnapshotId)
  | .looking _ src edgeType s => some (src, edgeType, s)
  | _ => none

theorem Call.asked_eq {call : Call} (h : call.asked = some (src, edgeType, s)) :
    ∃ v, call = .looking v src edgeType s := by
  cases call with
  | looking v src edgeType s =>
      cases h
      exact ⟨v, rfl⟩
  | _ => cases h

namespace Sys

variable {w x y z : Sys} {c c' : CallId} {call : Call} {a : Action}

/-- The condition that keeps flushes and compactions out. -/
def NoJobs (_ : Sys) (a : Action) : Prop := a.isJob = false

instance (x : Sys) (a : Action) : Decidable (NoJobs x a) := inferInstanceAs (Decidable (_ = _))

/-- What a call that is about to read returns. -/
def found (x : Sys) (c : CallId) : Option (List EdgeRecord) :=
  match x.calls c with
  | .looking v src edgeType s =>
      match getNeighborsTypedInternal x.engine.files x.engine.heap v x.engine.index src edgeType s
          x.engine.metadataCache with
      | .ok edges _ => some edges
      | .error _ _ => none
  | _ => none

/-! ## The part of the store that stays -/

/-- A lookup holds the lock of its source, and its version lists the memgraphs with records of the
source. -/
structure Looks (x : Sys) (levels : List (List CsrSegmentMeta)) (c : CallId) (v : Version)
    (src : VertexId) : Prop where
  levels_eq : v.levels = levels
  reading : c ∈ (x.locks (shard src)).readers
  listed : ∀ m < x.engine.nextMemGraphId, ∀ r, (x.engine.heap m).Stores r → r.src = src →
    m ∈ v.memgraphs

/-- Files, levels and index are those of `e`, every memgraph with records is listed, and every lookup is
right about its source. -/
structure Steady (e : Engine) (x : Sys) : Prop where
  files_eq : x.engine.files = e.files
  index_eq : x.engine.index = e.index
  levels_eq : x.engine.current.levels = e.current.levels
  recovered_eq : x.recovered = (start e).recovered
  active_mem : x.engine.active ∈ x.engine.current.memgraphs
  listed : ∀ m < x.engine.nextMemGraphId, ∀ r, (x.engine.heap m).Stores r →
    m ∈ x.engine.current.memgraphs
  looks : ∀ c v src edgeType s, x.calls c = .looking v src edgeType s →
    x.Looks e.current.levels c v src

theorem steady_start (h : e.Fresh) : (start e).Steady e where
  files_eq := rfl
  index_eq := rfl
  levels_eq := rfl
  recovered_eq := rfl
  active_mem := by
    show e.active ∈ e.current.memgraphs
    rw [h.memgraphs_eq]
    exact List.mem_singleton_self _
  listed m _ r hr := absurd hr (h.empty m r)
  looks c v src edgeType s hc := by cases hc

/-- A call that does not look anything up goes on: the lookups of the others stay. -/
theorem looking_of_update (hversion : call.version = none)
    (h : Function.update x.calls c call c' = .looking v src edgeType s) :
    c' ≠ c ∧ x.calls c' = .looking v src edgeType s := by
  by_cases hcc : c' = c
  · subst hcc
    rw [Function.update_self] at h
    subst h
    cases hversion
  · exact ⟨hcc, by rwa [Function.update_of_ne hcc] at h⟩

/-- A step that touches neither what is stored nor the locks others hold. -/
theorem Steady.quiet (h : x.Steady e) (hfiles : y.engine.files = x.engine.files)
    (hindex : y.engine.index = x.engine.index) (hcurrent : y.engine.current = x.engine.current)
    (hactive : y.engine.active = x.engine.active) (hheap : y.engine.heap = x.engine.heap)
    (hnext : y.engine.nextMemGraphId = x.engine.nextMemGraphId)
    (hrecovered : y.recovered = x.recovered) (hcalls : y.calls = Function.update x.calls c call)
    (hversion : call.version = none)
    (hlocks : ∀ i, ∀ c' ≠ c, c' ∈ (x.locks i).readers → c' ∈ (y.locks i).readers) : y.Steady e where
  files_eq := hfiles.trans h.files_eq
  index_eq := hindex.trans h.index_eq
  levels_eq := by
    rw [hcurrent]
    exact h.levels_eq
  recovered_eq := hrecovered.trans h.recovered_eq
  active_mem := by
    rw [hactive, hcurrent]
    exact h.active_mem
  listed m hm r hr := by
    rw [hheap] at hr
    rw [hcurrent]
    exact h.listed m (hnext ▸ hm) r hr
  looks c' v src edgeType s hc := by
    rw [hcalls] at hc
    obtain ⟨hne, hc⟩ := looking_of_update hversion hc
    obtain ⟨hlevels, hreading, hlisted⟩ := h.looks c' v src edgeType s hc
    refine ⟨hlevels, hlocks _ c' hne hreading, fun m hm r hr hsrc => ?_⟩
    rw [hheap] at hr
    exact hlisted m (hnext ▸ hm) r hr hsrc

/-- **A write gets the lock of its source when nobody looks the source up.** -/
theorem Steady.insert (h : x.Steady e) (hsound : x.Sound K) {edge : EdgeRecord}
    (hcall : x.calls c = .writing edge) (hlock : (x.locks (shard edge.src)).readers = []) :
    ({ x with
      engine := x.engine.withInserted edge
      inserted := x.inserted ++ [edge] } : Sys).Steady e where
  files_eq := h.files_eq
  index_eq := h.index_eq
  levels_eq := h.levels_eq
  recovered_eq := h.recovered_eq
  active_mem := h.active_mem
  listed m hm r hr := by
    rcases ((hsound.stores_withInserted (by rw [hcall]; rfl)).2 m r).mp hr with hr | ⟨rfl, -⟩
    · exact h.listed m hm r hr
    · exact h.active_mem
  looks c' v src edgeType s hc := by
    obtain ⟨hlevels, hreading, hlisted⟩ := h.looks c' v src edgeType s hc
    refine ⟨hlevels, hreading, fun m hm r hr hsrc => ?_⟩
    rcases ((hsound.stores_withInserted (by rw [hcall]; rfl)).2 m r).mp hr with hr | ⟨-, rfl⟩
    · exact hlisted m hm r hr hsrc
    · -- the lookup would be a reader
      rw [← hsrc, hlock] at hreading
      exact absurd hreading List.not_mem_nil

/-- A rotation lists the new memgraph, which holds nothing. -/
theorem Steady.rotate (h : x.Steady e) :
    ({ x with engine := x.engine.withNewActive } : Sys).Steady e := by
  have hold : ∀ m < x.engine.nextMemGraphId + 1, ∀ r, (x.engine.withNewActive.heap m).Stores r →
      m < x.engine.nextMemGraphId ∧ (x.engine.heap m).Stores r := by
    intro m hm r hr
    rcases Nat.lt_succ_iff_lt_or_eq.mp hm with hm | rfl
    · have hheap : x.engine.withNewActive.heap m = x.engine.heap m := Function.update_of_ne hm.ne _ _
      exact ⟨hm, hheap ▸ hr⟩
    · have hheap : x.engine.withNewActive.heap x.engine.nextMemGraphId = MemGraph.new
          x.engine.config.memgraphCapacityBytes x.engine.config.inlineSegmentCapacity :=
        Function.update_self _ _ _
      exact absurd (hheap ▸ hr) (MemGraph.not_stores_new _ _ r)
  exact
    { files_eq := h.files_eq
      index_eq := h.index_eq
      levels_eq := h.levels_eq
      recovered_eq := h.recovered_eq
      active_mem := List.mem_cons_self
      listed := fun m hm r hr => by
        obtain ⟨hm, hr⟩ := hold m hm r hr
        exact List.mem_cons_of_mem _ (h.listed m hm r hr)
      looks := fun c' v src edgeType s hc => by
        obtain ⟨hlevels, hreading, hlisted⟩ := h.looks c' v src edgeType s hc
        refine ⟨hlevels, hreading, fun m hm r hr hsrc => ?_⟩
        obtain ⟨hm, hr⟩ := hold m hm r hr
        exact hlisted m hm r hr hsrc }

/-- Locks of which the readers stay. -/
theorem mem_readers_setLock {i : UInt64} {lock : VertexLock}
    (h : c' ∈ (x.locks (shard src)).readers → c' ∈ lock.readers) (hc : c' ∈ (x.locks i).readers) :
    c' ∈ ((x.setLock src lock).locks i).readers := by
  by_cases hi : i = shard src
  · subst hi
    show c' ∈ (Function.update x.locks (shard src) lock (shard src)).readers
    rw [Function.update_self]
    exact h hc
  · show c' ∈ (Function.update x.locks (shard src) lock i).readers
    rwa [Function.update_of_ne hi]

/-- **Step lemma.** -/
theorem Steady.step (h : x.Steady e) (hsound : x.Sound K) (hP : NoJobs x a) (hs : Step x a y) :
    y.Steady e := by
  cases hs with
  | turn hturn =>
      exact h.quiet rfl rfl rfl rfl rfl rfl rfl rfl hturn.quiet.2.2.1 fun _ _ _ hc => hc
  | draw hcall hoverflow hts ha =>
      exact h.quiet rfl rfl rfl rfl rfl rfl rfl rfl rfl fun _ _ _ hc => hc
  | write hcall hlock =>
      exact (h.insert hsound hcall hlock.1).quiet rfl rfl rfl rfl rfl rfl rfl rfl rfl fun _ _ _ hc => hc
  | writeFull hcall hlock =>
      exact (h.insert hsound hcall hlock.1).rotate.quiet rfl rfl rfl rfl rfl rfl rfl rfl rfl
        fun _ _ _ => mem_readers_setLock id
  | flushActive hcall hfull =>
      exact h.rotate.quiet rfl rfl rfl rfl rfl rfl rfl rfl rfl fun _ _ _ hc => hc
  | spawn hcall hpushing hwrite hbegan =>
      exact h.quiet rfl rfl rfl rfl rfl rfl rfl rfl (quiet_of_pushing hpushing).2.1 fun _ _ _ hc => hc
  | pushWrite hcall =>
      exact h.quiet rfl rfl rfl rfl rfl rfl rfl rfl rfl fun _ _ _ => mem_readers_setLock id
  | pushFlush hcall => exact h.quiet rfl rfl rfl rfl rfl rfl rfl rfl rfl fun _ _ _ hc => hc
  | pop hcall hlast => exact h.quiet rfl rfl rfl rfl rfl rfl rfl rfl rfl fun _ _ _ hc => hc
  | select hcall hkind => exact h.quiet rfl rfl rfl rfl rfl rfl rfl rfl rfl fun _ _ _ hc => hc
  | @job p fault kind stage progress e' hjob heffect => cases hP
  | read hcall hcache =>
      exact h.quiet rfl rfl rfl rfl rfl rfl rfl rfl rfl fun _ _ hne =>
        mem_readers_setLock (List.mem_erase_of_ne hne).mpr
  | @getNeighbors c src edgeType s hcall hlock =>
      -- the others stay, and `c` pins the current version
      have hothers : ∀ {i c'}, c' ∈ (x.locks i).readers → c' ∈ ((x.setLock src
          { x.locks (shard src) with readers := c :: (x.locks (shard src)).readers }).locks i).readers :=
        mem_readers_setLock (List.mem_cons_of_mem c)
      refine { h with looks := fun c' v src' edgeType' s' hc => ?_ }
      by_cases hcc : c' = c
      · subst hcc
        rw [setCall_self] at hc
        cases hc
        refine ⟨h.levels_eq, ?_, fun m hm r hr _ => h.listed m hm r hr⟩
        show c' ∈ (Function.update x.locks (shard src) _ (shard src)).readers
        rw [Function.update_self]
        exact List.mem_cons_self
      · rw [setCall_of_ne hcc] at hc
        obtain ⟨hlevels, hreading, hlisted⟩ := h.looks c' v src' edgeType' s' hc
        exact ⟨hlevels, hothers hreading, hlisted⟩

theorem steady_of_reaches (hopened : Opened e) (hrun : Reaches step NoJobs (start e) x) :
    ∃ K, x.Sound K ∧ x.Steady e := by
  obtain ⟨K, hsound, -, hsteady⟩ := invariant_of_reaches (I := fun x _ => x.Steady e) hopened hrun
    steady_start fun x K a y K' hsound _ hP hs _ _ _ h => h.step hsound hP hs
  exact ⟨K, hsound, hsteady⟩

/-- **A lookup merges what was inserted for its source**, all of it and nothing else. -/
theorem Steady.found_eq (h : x.Steady e) (hfresh : e.Fresh) (hsound : x.Sound K)
    (hcall : x.calls c = .looking v src edgeType s) :
    ∃ updates, x.found c = some (mergeVisible updates s) ∧
      ∀ r, r ∈ updates ↔ (r.src = src ∧ TypeMatches edgeType r) ∧ r ∈ x.inserted := by
  obtain ⟨hlevels, -, hlisted⟩ := h.looks c v src edgeType s hcall
  have hplaced : v.Placed K := hsound.version c v (by rw [hcall]; rfl)
  obtain ⟨updates, cache, hrun, hmem, hinserted⟩ := hsound.lookup_spec hplaced src edgeType s
  have hfound : x.found c = some (mergeVisible updates s) := by
    simp only [found, hcall, hrun]
  refine ⟨updates, hfound, fun r => ⟨fun hr => ⟨((hmem r).mp hr).1, hinserted r hr⟩, ?_⟩⟩
  rintro ⟨hasked, hr⟩
  refine (hmem r).mpr ⟨hasked, ?_⟩
  rcases hsound.ledger.complete r hr with hr | ⟨m, hm, hr⟩
  · rw [h.recovered_eq] at hr
    have hrecord : r ∈ fileRecords e.files e.current.files := mem_flatMap_segmentRecords.mp hr
    have hzero : v.level 0 = e.current.level 0 := by rw [Version.level, hlevels, Version.level]
    rw [h.files_eq, hzero, h.index_eq, hfresh.index_eq, ← hasked.1, Engine.mem_fileRecords_indexOf,
      ← Engine.mem_fileRecords_files]
    exact Or.inr hrecord
  · exact Or.inl ⟨m, hlisted m hm r hr hasked.1, hr⟩

/-! ## What a snapshot covers -/

/-- No write that the lookup would see is still to be inserted. -/
def Settled (x : Sys) (src : VertexId) (edgeType : Option EdgeType) (s : SnapshotId) : Prop :=
  ∀ c edge, x.calls c = .writing edge → edge.src = src → TypeMatches edgeType edge → s < edge.ts

/-- The snapshot was taken and settled at `x`, and the lookup sees in `y` what it saw in `x`. -/
structure SettledSince (x : Sys) (src : VertexId) (edgeType : Option EdgeType) (s : SnapshotId)
    (y : Sys) : Prop where
  taken : s ≤ y.engine.timestamp
  settled : y.Settled src edgeType s
  kept : ∀ r ∈ x.inserted, r ∈ y.inserted
  known : ∀ r ∈ y.inserted, r.src = src → TypeMatches edgeType r → r.ts ≤ s → r ∈ x.inserted

theorem SettledSince.refl (htaken : s ≤ x.engine.timestamp) (h : x.Settled src edgeType s) :
    x.SettledSince src edgeType s x :=
  ⟨htaken, h, fun _ hr => hr, fun _ hr _ _ _ => hr⟩

/-- A call that does not write goes on: the writes of the others stay. -/
theorem writing_of_update {edge : EdgeRecord} (hedge : call.edge = none)
    (h : Function.update x.calls c call c' = .writing edge) : x.calls c' = .writing edge := by
  by_cases hcc : c' = c
  · subst hcc
    rw [Function.update_self] at h
    subst h
    cases hedge
  · rwa [Function.update_of_ne hcc] at h

/-- A step that neither draws nor inserts. -/
theorem SettledSince.quiet (h : x.SettledSince src edgeType s y)
    (hts : z.engine.timestamp = y.engine.timestamp) (hinserted : z.inserted = y.inserted)
    (hcalls : z.calls = Function.update y.calls c call) (hedge : call.edge = none) :
    x.SettledSince src edgeType s z where
  taken := hts ▸ h.taken
  settled c' edge hc := by
    rw [hcalls] at hc
    exact h.settled c' edge (writing_of_update hedge hc)
  kept r hr := hinserted ▸ h.kept r hr
  known r hr := h.known r (hinserted ▸ hr)

/-- An insertion that was still to be made is beyond the snapshot. -/
theorem SettledSince.insert (h : x.SettledSince src edgeType s y) {edge : EdgeRecord}
    (hcall : y.calls c = .writing edge) (hts : z.engine.timestamp = y.engine.timestamp)
    (hinserted : z.inserted = y.inserted ++ [edge])
    (hcalls : z.calls = Function.update y.calls c call) (hedge : call.edge = none) :
    x.SettledSince src edgeType s z where
  taken := hts ▸ h.taken
  settled c' edge' hc := by
    rw [hcalls] at hc
    exact h.settled c' edge' (writing_of_update hedge hc)
  kept r hr := hinserted ▸ List.mem_append_left _ (h.kept r hr)
  known r hr hsrc htype hrs := by
    rw [hinserted, List.mem_append, List.mem_singleton] at hr
    rcases hr with hr | rfl
    · exact h.known r hr hsrc htype hrs
    · exact absurd hrs (h.settled c r hcall hsrc htype).not_ge

/-- **Step lemma.** -/
theorem settledSince_step (h : x.SettledSince src edgeType s y) (hP : NoJobs y a) (hs : Step y a z) :
    x.SettledSince src edgeType s z := by
  cases hs with
  | turn hturn => exact h.quiet rfl rfl rfl hturn.quiet.2.1
  | @draw a c edge hcall hoverflow hts ha =>
      -- the timestamp that is drawn is beyond every snapshot taken
      have hlt : s < edge.ts := h.taken.trans_lt (hts ▸ Timestamp.lt_drawn hoverflow)
      refine { h with taken := hlt.le, settled := fun c' edge' hc hsrc htype => ?_ }
      by_cases hcc : c' = c
      · subst hcc
        rw [setCall_self] at hc
        cases hc
        exact hlt
      · rw [setCall_of_ne hcc] at hc
        exact h.settled c' edge' hc hsrc htype
  | write hcall hlock => exact h.insert hcall rfl rfl rfl rfl
  | writeFull hcall hlock => exact h.insert hcall rfl rfl rfl rfl
  | flushActive hcall hfull => exact h.quiet rfl rfl rfl rfl
  | spawn hcall hpushing hwrite hbegan => exact h.quiet rfl rfl rfl (quiet_of_pushing hpushing).1
  | pushWrite hcall => exact h.quiet rfl rfl rfl rfl
  | pushFlush hcall => exact h.quiet rfl rfl rfl rfl
  | pop hcall hlast => exact h.quiet rfl rfl rfl rfl
  | select hcall hkind => exact h.quiet rfl rfl rfl rfl
  | job hjob heffect => cases hP
  | getNeighbors hcall hlock => exact h.quiet rfl rfl rfl rfl
  | read hcall hcache => exact h.quiet rfl rfl rfl rfl

/-- The clock does not go back. -/
theorem timestamp_le_of_step (hP : NoJobs x a) (hs : Step x a y) :
    x.engine.timestamp ≤ y.engine.timestamp := by
  cases hs with
  | draw hcall hoverflow hts ha => exact hts ▸ (Timestamp.lt_drawn hoverflow).le
  | job hjob heffect => cases hP
  | _ => exact le_rfl

/-- What every step preserves stays from any state reached on. -/
theorem stays_of_reaches {I : Sys → Prop} (hopened : Opened e) (hrun : Reaches step NoJobs (start e) x)
    (hagain : Reaches step NoJobs x y) (hinit : I x)
    (hstep : ∀ x a y, I x → NoJobs x a → Step x a y → I y) : I y := by
  refine (hagain.invariant (I := fun y => Reaches step NoJobs (start e) y ∧ I y) ⟨hrun, hinit⟩ ?_).2
  rintro x a y ⟨hreached, hI⟩ hP hs
  obtain ⟨K, hsound, -⟩ := sound_of_reaches hopened hreached
  exact ⟨hreached.tail a hP hs, hstep x a y hI hP (step_cases hsound.keeps.fault_eq hs)⟩

/-! ## Reading again -/

/-- **Reads are repeatable.** A reader takes its snapshot at `w` and looks the source up at `x`, while
no write that it would see is still to be inserted; what it finds at `x` it finds at every later `y`
again. -/
theorem found_again (hopened : Opened e) (hrun : Reaches step NoJobs (start e) w)
    (hfirst : Reaches step NoJobs w x) (hagain : Reaches step NoJobs x y)
    (hasked : (x.calls c).asked = some (src, edgeType, w.engine.timestamp))
    (hasked' : (y.calls c').asked = some (src, edgeType, w.engine.timestamp))
    (hsettled : x.Settled src edgeType w.engine.timestamp) :
    ∃ edges, x.found c = some edges ∧ y.found c' = some edges := by
  have hfresh := hopened.fresh
  obtain ⟨v, hcall⟩ := Call.asked_eq hasked
  obtain ⟨v', hcall'⟩ := Call.asked_eq hasked'
  have hreached := hrun.trans hfirst
  -- the snapshot is not beyond the clock at `x`
  have htaken : w.engine.timestamp ≤ x.engine.timestamp := by
    refine stays_of_reaches (I := fun x => w.engine.timestamp ≤ x.engine.timestamp) hopened hrun
      hfirst le_rfl ?_
    exact fun x a y hle hP hs => hle.trans (timestamp_le_of_step hP hs)
  have hsince : x.SettledSince src edgeType w.engine.timestamp y := by
    refine stays_of_reaches hopened hreached hagain (.refl htaken hsettled) ?_
    exact fun x a y h hP hs => settledSince_step h hP hs
  obtain ⟨K, hsound, hsteady⟩ := steady_of_reaches hopened hreached
  obtain ⟨K', hsound', hsteady'⟩ := steady_of_reaches hopened (hreached.trans hagain)
  obtain ⟨updates, hfound, hmem⟩ := hsteady.found_eq hfresh hsound hcall
  obtain ⟨updates', hfound', hmem'⟩ := hsteady'.found_eq hfresh hsound' hcall'
  refine ⟨_, hfound, hfound'.trans (congrArg some ?_)⟩
  refine mergeVisible_congr_asOf
    (hsound'.ledger.coherent.mono fun r hr => ((hmem' r).mp hr).2)
    (hsound.ledger.coherent.mono fun r hr => ((hmem r).mp hr).2) fun r hrs => ?_
  rw [hmem, hmem']
  exact and_congr_right fun hasked =>
    ⟨fun hr => hsince.known r hr hasked.1 hasked.2 hrs, fun hr => hsince.kept r hr⟩

/-- A snapshot is settled when every timestamp it covers is that of an inserted record. -/
theorem settled_of_inserted (hopened : Opened e) (hrun : Reaches step NoJobs (start e) x)
    (h : ∀ ts, e.timestamp < ts → ts ≤ s → ∃ r ∈ x.inserted, r.ts = ts) :
    x.Settled src edgeType s := by
  -- whatever is drawn is beyond the clock the store was opened with
  have hsince : (start e).SettledSince src edgeType e.timestamp x := by
    refine stays_of_reaches hopened .refl hrun (.refl le_rfl fun c edge hc => by cases hc) ?_
    exact fun x a y h hP hs => settledSince_step h hP hs
  obtain ⟨K, hsound, -⟩ := sound_of_reaches hopened hrun
  intro c edge hc hsrc htype
  by_contra hle
  obtain ⟨r, hr, hts⟩ := h edge.ts (hsince.settled c edge hc hsrc htype) (not_lt.mp hle)
  exact hsound.ledger.edge_new c edge (by rw [hc]; rfl) r hr hts

/-- A reader takes the snapshot of an edge and looks its source up before and after another write. -/
theorem found_again_readTwice :
    ∃ e w x y edges, newEngine = some e ∧
      run step NoJobs (start e) [.insertEdge 0 1 2 1, .write 0] = some w ∧
      run step NoJobs w [.insertEdge 0 1 3 1, .getNeighbors 1 1 none 1] = some x ∧
      run step NoJobs x [.read 1, .write 0, .getNeighbors 1 1 none 1] = some y ∧
      x.found 1 = some edges ∧ y.found 1 = some edges := by
  have hruns : newEngine.any fun e =>
      (run step NoJobs (start e) [.insertEdge 0 1 2 1, .write 0]).any fun w =>
        (run step NoJobs w [.insertEdge 0 1 3 1, .getNeighbors 1 1 none 1]).any fun x =>
          (run step NoJobs x [.read 1, .write 0, .getNeighbors 1 1 none 1]).any fun y =>
            decide ((e.timestamp = 0 ∧ w.engine.timestamp = 1 ∧ x.inserted.any fun r => r.ts = 1) ∧
              (x.calls 1).asked = some (1, none, w.engine.timestamp) ∧
              (y.calls 1).asked = some (1, none, w.engine.timestamp)) := by decide +kernel
  obtain ⟨e, he, hrun⟩ := (Option.any_eq_true _ _).mp hruns
  obtain ⟨w, hw, hrun⟩ := (Option.any_eq_true _ _).mp hrun
  obtain ⟨x, hx, hrun⟩ := (Option.any_eq_true _ _).mp hrun
  obtain ⟨y, hy, hstates⟩ := (Option.any_eq_true _ _).mp hrun
  obtain ⟨⟨hzero, hone, hinserted⟩, hasked, hasked'⟩ := of_decide_eq_true hstates
  have hopened := opened_newEngine he
  have hsettled : x.Settled 1 none w.engine.timestamp := by
    refine settled_of_inserted hopened ((reaches_of_run hw).trans (reaches_of_run hx)) ?_
    intro ts hpos hle
    rw [hzero] at hpos
    rw [hone] at hle
    -- the only such timestamp is that of the first edge
    have hts : ts = 1 := by
      refine UInt64.toNat_inj.mp ?_
      rw [UInt64.lt_iff_toNat_lt] at hpos
      rw [UInt64.le_iff_toNat_le] at hle
      exact Nat.le_antisymm hle hpos
    obtain ⟨r, hr, hrts⟩ := List.any_eq_true.mp hinserted
    exact ⟨r, hr, (of_decide_eq_true hrts).trans hts.symm⟩
  obtain ⟨edges, hfound, hfound'⟩ := found_again hopened (reaches_of_run hw) (reaches_of_run hx)
    (reaches_of_run hy) hasked hasked' hsettled
  exact ⟨e, w, x, y, edges, he, hw, hx, hy, hfound, hfound'⟩

/-- **A write that has drawn its timestamp changes what a snapshot shows.** -/
theorem read_changed :
    ∃ e w x y, Opened e ∧ run step NoJobs (start e) [.insertEdge 0 1 2 1] = some w ∧
      run step NoJobs w [.getNeighbors 1 1 none w.engine.timestamp] = some x ∧
      run step NoJobs x [.read 1, .write 0, .getNeighbors 1 1 none w.engine.timestamp] = some y ∧
      x.found 1 = some [] ∧ y.found 1 = some [EdgeRecord.insert 1 2 1 w.engine.timestamp] := by
  have hruns : newEngine.any fun e =>
      (run step NoJobs (start e) [.insertEdge 0 1 2 1]).any fun w =>
        (run step NoJobs w [.getNeighbors 1 1 none w.engine.timestamp]).any fun x =>
          (run step NoJobs x [.read 1, .write 0, .getNeighbors 1 1 none w.engine.timestamp]).any
            fun y => decide (x.found 1 = some [] ∧
              y.found 1 = some [EdgeRecord.insert 1 2 1 w.engine.timestamp]) := by decide +kernel
  obtain ⟨e, he, hrun⟩ := (Option.any_eq_true _ _).mp hruns
  obtain ⟨w, hw, hrun⟩ := (Option.any_eq_true _ _).mp hrun
  obtain ⟨x, hx, hrun⟩ := (Option.any_eq_true _ _).mp hrun
  obtain ⟨y, hy, hfound⟩ := (Option.any_eq_true _ _).mp hrun
  exact ⟨e, w, x, y, opened_newEngine he, hw, hx, hy, of_decide_eq_true hfound⟩

end Sys

end LsmGraph
