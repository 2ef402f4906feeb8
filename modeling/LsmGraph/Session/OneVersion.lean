import LsmGraph.Session

/-! # One version of an edge in `L1`

A full compaction leaves one record of each edge in `L1`. A partial compaction picks its `L0` files
by the target, where unknown labels and mixed types match everything, and its `L1` files by the
target's label and type and by the sources of the `L0` files picked. So a mixed `L0` file can bring an
edge to `L1` whose older record is in a file of another type that stays. `separates` says that this
does not happen, and it is exactly what keeps `L1` at one version of each edge
(`oneVersion_of_reaches`). -/

namespace LsmGraph

open KeyedSort ErrorState CsrReader Transition

namespace Engine

variable {e e' : Engine}

/-- What the files of `L1` hold, each record as often as it is stored. -/
def l1Records (e : Engine) : List EdgeRecord :=
  (e.current.level 1).flatMap (segmentRecords e.files)

/-- No edge has two records in `L1`. -/
def OneVersion (e : Engine) : Prop := (e.l1Records.map EdgeRecord.key).Nodup

/-- The `L1` files that the label and type of the target miss hold no edge of the `L0` files that the
target selects. -/
def Separates (e : Engine) (target : L0CompactionTarget) : Prop :=
  ∀ m ∈ e.current.level 1, partitionOverlapsTarget m target.srcLabel target.edgeType = false →
    ∀ f ∈ selectL0 e.current target, ∀ r ∈ segmentRecords e.files f,
      ∀ r' ∈ segmentRecords e.files m, r'.key ≠ r.key

instance (e : Engine) : Decidable e.OneVersion := inferInstanceAs (Decidable (List.Nodup _))

instance (e : Engine) (target : L0CompactionTarget) : Decidable (e.Separates target) :=
  inferInstanceAs (Decidable (∀ m ∈ _, _ → ∀ f ∈ _, ∀ r ∈ _, ∀ r' ∈ _, _ ≠ _))

/-! ## Operations that leave `L1` alone -/

/-- The version lists the same `L1` files, and no file that was there has changed. -/
structure KeepsL1 (e e' : Engine) : Prop where
  level_eq : e'.current.level 1 = e.current.level 1
  files_eq : ∀ level id, id < e.nextFileId → e'.files level id = e.files level id

theorem KeepsL1.of_eq (hcurrent : e'.current.levels = e.current.levels) (hfiles : e'.files = e.files) :
    KeepsL1 e e' :=
  ⟨by rw [Version.level, Version.level, hcurrent], fun _ _ _ => by rw [hfiles]⟩

theorem KeepsL1.l1Records_eq (h : KeepsL1 e e') (hwf : e.WF) : e'.l1Records = e.l1Records := by
  rw [l1Records, l1Records, h.level_eq]
  refine List.flatMap_congr fun m hm => segmentRecords_congr (h.files_eq _ _ ?_)
  exact hwf.intact.fileId_lt m (Or.inl (Version.mem_files.mpr ⟨1, hm⟩))

/-- A rebuild replaces index and metadata cache only. -/
theorem rebuildIndex_frame {u : Unit} (h : rebuildIndex e = .ok u e') :
    ∃ index cache, e' = { e with index := index, metadataCache := cache } := by
  rw [rebuildIndex, bind_of_ok get_apply, bind_eq_ok] at h
  obtain ⟨entries, t, hcache, hmodify⟩ := h
  rw [modify_apply] at hmodify
  cases hmodify
  rw [withCache] at hcache
  cases hrun : buildIndex e.files e.current e.metadataCache with
  | ok entries' cache =>
      rw [hrun] at hcache
      cases hcache
      exact ⟨_, _, rfl⟩
  | error err cache =>
      rw [hrun] at hcache
      cases hcache

theorem keepsL1_write {mk : Timestamp → EdgeRecord} (hmk : ∀ ts, (mk ts).ts = ts) {ts : Timestamp}
    (h : (do let ts ← nextTimestamp; writeEdge (mk ts); pure ts) e = .ok ts e') : KeepsL1 e e' := by
  obtain ⟨ts', e₁, hts, hrest⟩ := bind_eq_ok.mp h
  rw [nextTimestamp] at hts
  split at hts
  · cases hts
  · cases hts
    have hwrite := writeEdge_apply (mk (e.timestamp + 1))
      { e with timestamp := e.timestamp + 1 } (hmk _).symm
    rw [bind_of_ok hwrite, pure_apply] at hrest
    cases hrest
    split
    · exact .of_eq rfl rfl
    · exact .of_eq rfl rfl

theorem keepsL1_beginFlushActive {u : Unit} (h : beginFlushActive e = .ok u e') : KeepsL1 e e' := by
  rw [beginFlushActive, bind_of_ok get_apply] at h
  split at h
  · cases h
    exact .of_eq rfl rfl
  · rw [rotate_enqueueFlush] at h
    cases h
    exact .of_eq rfl rfl

/-- A flush adds files to `L0`. -/
theorem keepsL1_runFlushTask {memgraph : MemGraphId} {u : Unit}
    (h : runFlushTask memgraph e = .ok u e') : KeepsL1 e e' := by
  obtain ⟨u', e₁, hflush, hmodify⟩ := bind_eq_ok.mp h
  rw [modify_apply] at hmodify
  cases hmodify
  suffices hkeeps : KeepsL1 e e₁ from ⟨hkeeps.level_eq, hkeeps.files_eq⟩
  rw [flushMemgraph, bind_of_ok get_apply] at hflush
  split at hflush
  · cases hflush
    exact .of_eq rfl rfl
  · rename_i hedges
    rcases createFiles_spec L0 (nil_notMem_buildL0FlushSegments e.config hedges) e with
      ⟨metas, e₂, hrun, hcreates, -⟩ | ⟨ms, e₂, hrun, -⟩
    · rw [bind_of_ok hrun, bind_of_ok get_apply, publish, bind_of_ok (modify_apply _)] at hflush
      obtain ⟨index, cache, rfl⟩ := rebuildIndex_frame hflush
      refine ⟨?_, hcreates.files_eq⟩
      obtain ⟨_, _, _, _, rfl⟩ := hcreates.frame
      exact Version.level_succ_afterFlush _ _ _ 0
    · rw [bind_of_error hrun] at hflush
      cases hflush

/-! ## Compactions -/

/-- **Without a fault** a compaction completes, its outputs hold what it merged, and the other files
stay as they are. -/
theorem compactFiles_completes (h : e.WF) (hcoh : Coherent e.records) (hfault : e.fault = none)
    {inputs : List CsrSegmentMeta} (cut : List EdgeRecord → List (List EdgeRecord))
    (next : Version → List CsrSegmentMeta → Version) (hne : inputs ≠ [])
    (hcut : ∀ l, l ≠ [] → [] ∉ cut l ∧ (cut l).flatten.Perm l)
    (hsub : ∀ m ∈ inputs, m ∈ e.current.files) {outputs : List CsrSegmentMeta}
    (hrun : compactFiles inputs cut next e = .ok outputs e') :
    (outputs.flatMap (segmentRecords e'.files)).Perm (e.merged inputs) ∧
      e'.current = next e.current outputs ∧
      ∀ level id, id < e.nextFileId → e'.files level id = e.files level id := by
  obtain ⟨hnil, hperm⟩ := hcut _ (merged_ne_nil h hcoh hne hsub)
  rw [compactFiles_eq h hsub] at hrun
  rcases createFiles_spec L1 hnil e with
    ⟨outputs', e₁, hcreate, hcreates, hstored, -, -⟩ | ⟨ms, e₁, -, hnone, -⟩
  · rw [bind_of_ok hcreate] at hrun
    obtain ⟨u, e₂, hdelete, hrun⟩ := bind_eq_ok.mp hrun
    have hdeletes : ∃ manifest fault, e₂ = { e₁ with manifest := manifest, fault := fault } := by
      rcases deleteFiles_spec inputs e₁ with ⟨e₃, hrun', hdeletes, -⟩ | ⟨ids, e₃, hrun', -⟩
      · rw [hrun'] at hdelete
        cases hdelete
        exact hdeletes.frame
      · rw [hrun'] at hdelete
        cases hdelete
    rw [bind_of_ok get_apply, publish, bind_of_ok (modify_apply _)] at hrun
    obtain ⟨u', e₃, hrebuild, hpure⟩ := bind_eq_ok.mp hrun
    rw [pure_apply] at hpure
    cases hpure
    obtain ⟨index, cache, rfl⟩ := rebuildIndex_frame hrebuild
    obtain ⟨_, _, rfl⟩ := hdeletes
    have hfiles := hcreates.files_eq
    obtain ⟨_, _, _, _, rfl⟩ := hcreates.frame
    exact ⟨(perm_of_forall₂ hstored).trans hperm, rfl, hfiles⟩
  · exact absurd hfault hnone

/-- One record of each edge is left by a merge. -/
theorem nodup_merged (e : Engine) (inputs : List CsrSegmentMeta) :
    ((e.merged inputs).map EdgeRecord.key).Nodup := by
  refine List.pairwise_map.mpr ?_
  exact (pairwise_mergeLatestRecords _ _ _).imp fun hlt => ne_of_lt hlt

/-- Sorting a level moves its records around. -/
theorem perm_flatMap_sortLevel (files : StoreFiles) (level : List CsrSegmentMeta) :
    ((sortLevel level).flatMap (segmentRecords files)).Perm (level.flatMap (segmentRecords files)) :=
  (perm_sortByKey _ level).flatMap_right _

/-- **A full compaction** leaves one record of each edge in `L1`, unless it has nothing to do. -/
theorem compactL0ToL1Inner_l1 (h : e.WF) (hcoh : Coherent e.records) (hfault : e.fault = none)
    {force : Bool} {output : Option CsrSegmentMeta}
    (hrun : compactL0ToL1Inner force e = .ok output e') : KeepsL1 e e' ∨ OneVersion e' := by
  rcases waitForFlushes_cases h with ⟨hwait, -⟩ | ⟨hwait, hrunning⟩
  · rw [compactL0ToL1Inner, bind_of_error hwait] at hrun
    cases hrun
  · rw [compactL0ToL1Inner, bind_of_ok hwait, bind_of_ok get_apply] at hrun
    split at hrun
    · cases hrun
      exact Or.inl (.of_eq rfl rfl)
    rename_i hl0
    split at hrun
    · cases hrun
      exact Or.inl (.of_eq rfl rfl)
    obtain ⟨outputs, e₁, hcompact, hpure⟩ := bind_eq_ok.mp hrun
    rw [pure_apply] at hpure
    cases hpure
    have hwf := (waited_spec h hrunning).1
    have hcut : ∀ l : List EdgeRecord, l ≠ [] → [] ∉ [l] ∧ ([l].flatten).Perm l := fun l hl =>
      ⟨fun hmem => hl (List.mem_singleton.mp hmem).symm, by simp⟩
    obtain ⟨hperm, hcurrent, -⟩ := compactFiles_completes (e := e.waited) hwf hcoh hfault
      (fun l => [l]) Version.afterFullCompaction (List.append_ne_nil_of_left_ne_nil hl0 _) hcut
      (replaces_full hwf).mem_inputs hcompact
    refine Or.inr ?_
    rw [OneVersion, l1Records, hcurrent, Version.level_one_afterFullCompaction]
    refine (((perm_flatMap_sortLevel _ _).trans hperm).map _).nodup_iff.mpr ?_
    exact nodup_merged _ _

/-- **The end of `flush_active`** leaves `L1` alone or with one record of each edge. -/
theorem finishFlushActive_l1 (h : e.WF) (hcoh : Coherent e.records) (hfault : e.fault = none)
    {u : Unit} (hrun : finishFlushActive e = .ok u e') : KeepsL1 e e' ∨ OneVersion e' := by
  rcases waitForFlushes_cases h with ⟨hwait, -⟩ | ⟨hwait, hrunning⟩
  · rw [finishFlushActive, bind_of_error hwait] at hrun
    cases hrun
  · rw [finishFlushActive, bind_of_ok hwait, bind_of_ok get_apply] at hrun
    split at hrun
    · obtain ⟨output, e₁, hcompact, hpure⟩ := bind_eq_ok.mp hrun
      rw [pure_apply] at hpure
      cases hpure
      have hwf := (waited_spec h hrunning).1
      refine (compactL0ToL1Inner_l1 (e := e.waited) hwf hcoh hfault hcompact).imp_left ?_
      exact fun hkeeps => ⟨hkeeps.level_eq, hkeeps.files_eq⟩
    · cases hrun
      exact Or.inl (.of_eq rfl rfl)

/-- The records of the `L1` files a partial compaction does not read. -/
def keptRecords (e : Engine) (target : L0CompactionTarget) : List EdgeRecord :=
  ((e.current.level 1).filter fun m =>
    m ∉ selectL1 e.current target (selectL0 e.current target)).flatMap (segmentRecords e.files)

/-- **A partial compaction** keeps the `L1` files it does not read, and adds what it merged. -/
theorem compactL0TargetToL1_l1 (h : e.WF) (hcoh : Coherent e.records) (hfault : e.fault = none)
    {target : L0CompactionTarget} {outputs : List CsrSegmentMeta}
    (hrun : compactL0TargetToL1 target e = .ok outputs e') :
    selectL0 e.current target = [] ∧ KeepsL1 e e' ∨
      selectL0 e.current target ≠ [] ∧
        e'.l1Records.Perm (e.keptRecords target ++ e.merged (e.targetInputs target)) := by
  rcases waitForFlushes_cases h with ⟨hwait, -⟩ | ⟨hwait, hrunning⟩
  · rw [compactL0TargetToL1, bind_of_error hwait] at hrun
    cases hrun
  · rw [compactL0TargetToL1, bind_of_ok hwait, bind_of_ok get_apply] at hrun
    split at hrun
    · rename_i hl0
      cases hrun
      exact Or.inl ⟨hl0, .of_eq rfl rfl⟩
    rename_i hl0
    refine Or.inr ⟨hl0, ?_⟩
    have hwf := (waited_spec h hrunning).1
    have hcut : ∀ l : List EdgeRecord, l ≠ [] →
        [] ∉ splitCompactionSegments l e.waited.config.segmentTargetBytes ∧
          (splitCompactionSegments l e.waited.config.segmentTargetBytes).flatten.Perm l := fun l _ =>
      ⟨nil_notMem_splitCompactionSegments _ _, perm_splitCompactionSegments _ _⟩
    have hsub := (replaces_target hwf (selectL0 e.waited.current target)
      (selectL1 e.waited.current target (selectL0 e.waited.current target))
      (fun m hm => List.mem_of_mem_filter hm) (fun m hm => List.mem_of_mem_filter hm)).mem_inputs
    obtain ⟨hperm, hcurrent, hfiles⟩ := compactFiles_completes (e := e.waited) hwf hcoh hfault
      _ _ (List.append_ne_nil_of_left_ne_nil hl0 _) hcut hsub hrun
    have hinputs : e.targetInputs target = selectL0 e.waited.current target ++
        selectL1 e.waited.current target (selectL0 e.waited.current target) := if_neg hl0
    rw [hinputs, l1Records, hcurrent, Version.level_one_afterTargetCompaction]
    refine (perm_flatMap_sortLevel _ _).trans ?_
    rw [List.flatMap_append]
    refine List.Perm.append (List.Perm.of_eq ?_) hperm
    have hknown : ∀ m ∈ e.current.level 1, m ∈ e.knownFiles := fun m hm =>
      Or.inl (Version.mem_files.mpr ⟨1, hm⟩)
    -- the ids of the files selected stand for the files
    have hfilter : ((e.waited.current.level 1).filter fun m => m.fileId ∉
        (selectL1 e.waited.current target (selectL0 e.waited.current target)).map
          CsrSegmentMeta.fileId) =
        (e.current.level 1).filter fun m =>
          m ∉ selectL1 e.current target (selectL0 e.current target) := by
      refine List.filter_congr fun m hm => decide_eq_decide.mpr (not_congr ?_)
      refine ⟨fun hmem => ?_, fun hmem => List.mem_map_of_mem hmem⟩
      obtain ⟨m', hm', hid⟩ := List.mem_map.mp hmem
      rwa [← h.intact.injOn (hknown m' (List.mem_of_mem_filter hm')) (hknown m hm) hid]
    rw [hfilter, keptRecords]
    refine List.flatMap_congr fun m hm => segmentRecords_congr (hfiles _ _ ?_)
    exact h.intact.fileId_lt m (hknown m (List.mem_of_mem_filter hm))

/-- The sources of a file lie between the bounds computed from a list it is in. -/
theorem hull_bounds {ms : List CsrSegmentMeta} {f : CsrSegmentMeta} (hf : f ∈ ms) :
    (ms.map CsrSegmentMeta.minSrc).min?.getD 0 ≤ f.minSrc ∧
      f.maxSrc ≤ (ms.map CsrSegmentMeta.maxSrc).max?.getD 0 := by
  constructor
  · have hmem : f.minSrc ∈ ms.map CsrSegmentMeta.minSrc := List.mem_map_of_mem hf
    obtain ⟨b, hb⟩ := Option.isSome_iff_exists.mp (List.isSome_min?_of_mem hmem)
    rw [hb]
    exact (List.min?_eq_some_iff.mp hb).2 _ hmem
  · have hmem : f.maxSrc ∈ ms.map CsrSegmentMeta.maxSrc := List.mem_map_of_mem hf
    obtain ⟨b, hb⟩ := Option.isSome_iff_exists.mp (List.isSome_max?_of_mem hmem)
    rw [hb]
    exact (List.max?_eq_some_iff.mp hb).2 _ hmem

/-- **The range test misses nothing**: an `L1` file that shares an edge with an `L0` file selected is
selected, unless its label and type speak against it. -/
theorem mem_selectL1_of_key_eq (h : e.WF) {target : L0CompactionTarget} {f m : CsrSegmentMeta}
    (hf : f ∈ selectL0 e.current target) (hm : m ∈ e.current.level 1)
    (hoverlaps : partitionOverlapsTarget m target.srcLabel target.edgeType = true)
    {r r' : EdgeRecord} (hr : r ∈ segmentRecords e.files f) (hr' : r' ∈ segmentRecords e.files m)
    (hkey : r'.key = r.key) : m ∈ selectL1 e.current target (selectL0 e.current target) := by
  have hf0 : f ∈ e.current.files := Version.mem_files.mpr ⟨0, List.mem_of_mem_filter hf⟩
  obtain ⟨hmin, hmax⟩ := (h.readable hf0).2.src_mem_range hr
  obtain ⟨hmin', hmax'⟩ := (h.readable (Version.mem_files.mpr ⟨1, hm⟩)).2.src_mem_range hr'
  have hsrc : r'.src = r.src := congrArg (fun k => (ofLex k).1) hkey
  rw [hsrc] at hmin' hmax'
  obtain ⟨hlow, hhigh⟩ := hull_bounds hf
  refine List.mem_filter.mpr ⟨hm, ?_⟩
  rw [hoverlaps, Bool.true_and, rangesOverlap, Bool.and_eq_true, decide_eq_true_iff,
    decide_eq_true_iff]
  exact ⟨hmin'.trans (hmax.trans hhigh), hlow.trans (hmin.trans hmax')⟩

/-- The `L1` files of a version, those a partial compaction keeps first. -/
theorem perm_keptRecords (e : Engine) (target : L0CompactionTarget) :
    (e.keptRecords target ++ (selectL1 e.current target (selectL0 e.current target)).flatMap
      (segmentRecords e.files)).Perm e.l1Records := by
  rw [keptRecords, ← List.flatMap_append]
  refine List.Perm.flatMap_right _ ?_
  have hsplit : (selectL1 e.current target (selectL0 e.current target)) =
      (e.current.level 1).filter fun m =>
        !decide (m ∉ selectL1 e.current target (selectL0 e.current target)) := by
    conv_lhs => rw [selectL1]
    refine List.filter_congr fun m hm => ?_
    rw [decide_not, Bool.not_not, Bool.eq_iff_iff, decide_eq_true_iff]
    exact ⟨fun htest => List.mem_filter.mpr ⟨hm, htest⟩, fun hmem => (List.mem_filter.mp hmem).2⟩
  have hperm := List.filter_append_perm
    (fun m => decide (m ∉ selectL1 e.current target (selectL0 e.current target))) (e.current.level 1)
  rwa [← hsplit] at hperm

/-- **One partial compaction** leaves `L1` with one version of each edge iff the `L1` files that the
label and type of its target miss share no edge with the `L0` files it selects. -/
theorem oneVersion_target_iff (h : e.WF) (hcoh : Coherent e.records) (hfault : e.fault = none)
    (hone : e.OneVersion) {target : L0CompactionTarget} {outputs : List CsrSegmentMeta}
    (hrun : compactL0TargetToL1 target e = .ok outputs e') :
    e'.OneVersion ↔ e.Separates target := by
  rcases compactL0TargetToL1_l1 h hcoh hfault hrun with ⟨hl0, hkeeps⟩ | ⟨hl0, hperm⟩
  · refine iff_of_true ?_ fun m _ _ f hf => ?_
    · rw [OneVersion, hkeeps.l1Records_eq h]
      exact hone
    · rw [hl0] at hf
      exact absurd hf List.not_mem_nil
  have hinputs : e.targetInputs target = selectL0 e.current target ++
      selectL1 e.current target (selectL0 e.current target) := if_neg hl0
  rw [OneVersion, (hperm.map _).nodup_iff, List.map_append, List.nodup_append]
  have hold := ((perm_keptRecords e target).map EdgeRecord.key).nodup_iff.mpr hone
  rw [List.map_append, List.nodup_append] at hold
  constructor
  · rintro ⟨-, -, hdisjoint⟩ m hm hmiss f hf r hr r' hr' hkey
    -- the file stays, and the merge has a record of the edge
    have hstays : m ∉ selectL1 e.current target (selectL0 e.current target) := fun hmem => by
      have htest := (List.mem_filter.mp hmem).2
      rw [hmiss] at htest
      exact Bool.noConfusion htest
    have hkept : r' ∈ e.keptRecords target :=
      List.mem_flatMap.mpr ⟨m, List.mem_filter.mpr ⟨hm, decide_eq_true hstays⟩, hr'⟩
    have hsub : ∀ x ∈ e.targetInputs target, x ∈ e.current.files := by
      intro x hx
      rw [hinputs] at hx
      rcases List.mem_append.mp hx with hx | hx
      · exact Version.mem_files.mpr ⟨0, List.mem_of_mem_filter hx⟩
      · exact Version.mem_files.mpr ⟨1, List.mem_of_mem_filter hx⟩
    obtain ⟨r'', hr'', -, hkey', -⟩ := exists_mem_merged hcoh hsub
      (fun x hx => h.ts_le x (Or.inl hx))
      ⟨f, hinputs ▸ List.mem_append_left _ hf, hr⟩
    exact hdisjoint _ (List.mem_map_of_mem hkept) _ (List.mem_map_of_mem hr'')
      (hkey.trans hkey'.symm)
  · intro hseparates
    refine ⟨hold.1, nodup_merged _ _, fun k hk k' hk' heq => ?_⟩
    obtain ⟨r', hr', rfl⟩ := List.mem_map.mp hk
    obtain ⟨r, hr, rfl⟩ := List.mem_map.mp hk'
    obtain ⟨m, hm, hr'⟩ := List.mem_flatMap.mp hr'
    obtain ⟨hm1, hstays⟩ := List.mem_filter.mp hm
    obtain ⟨f, hf, hr⟩ := mem_of_mem_merged hr
    rw [hinputs] at hf
    rcases List.mem_append.mp hf with hf | hf
    · cases hoverlaps : partitionOverlapsTarget m target.srcLabel target.edgeType with
      | false => exact hseparates m hm1 hoverlaps f hf r hr r' hr' heq
      | true =>
          exact of_decide_eq_true hstays (mem_selectL1_of_key_eq h hf hm1 hoverlaps hr hr' heq)
    · -- both records were in `L1` before
      exact hold.2.2 _ (List.mem_map_of_mem (List.mem_flatMap.mpr ⟨m, hm, hr'⟩)) _
        (List.mem_map_of_mem (List.mem_flatMap.mpr ⟨f, hf, hr⟩)) heq

end Engine

/-! ## Runs -/

namespace Session

variable {x y : Session}

/-- The operations of a client at work: all but a reopening, and no I/O fault. -/
def SingleClient : Op → Prop
  | .reopen _ => False
  | op => Faultless op

/-- What has to hold when a partial compaction starts. -/
def Separates (x : Session) : Op → Prop
  | .compactL0PartitionToL1 _ srcLabel edgeType =>
      x.engine.Separates { srcLabel, edgeType, minSrc := none, maxSrc := none }
  | .compactL0RangeToL1 _ srcLabel edgeType minSrc maxSrc =>
      x.engine.Separates { srcLabel, edgeType, minSrc := some minSrc, maxSrc := some maxSrc }
  | _ => True

instance : DecidablePred SingleClient := fun op =>
  match op with
  | .reopen _ => isFalse id
  | .finishFlushActive fault => inferInstanceAs (Decidable (fault = none))
  | .compactL0ToL1 fault => inferInstanceAs (Decidable (fault = none))
  | .compactL0PartitionToL1 fault _ _ => inferInstanceAs (Decidable (fault = none))
  | .compactL0RangeToL1 fault _ _ _ _ => inferInstanceAs (Decidable (fault = none))
  | .insertEdge _ _ _ | .deleteEdge _ _ _ | .getNeighbors _ _ _ | .beginFlushActive
  | .runFlushTask _ => isTrue trivial

instance (x : Session) : DecidablePred x.Separates := fun op =>
  match op with
  | .compactL0PartitionToL1 _ srcLabel edgeType =>
      inferInstanceAs (Decidable (x.engine.Separates
        { srcLabel, edgeType, minSrc := none, maxSrc := none }))
  | .compactL0RangeToL1 _ srcLabel edgeType minSrc maxSrc =>
      inferInstanceAs (Decidable (x.engine.Separates
        { srcLabel, edgeType, minSrc := some minSrc, maxSrc := some maxSrc }))
  | .insertEdge _ _ _ | .deleteEdge _ _ _ | .getNeighbors _ _ _ | .beginFlushActive
  | .finishFlushActive _ | .compactL0ToL1 _ | .runFlushTask _ | .reopen _ => isTrue trivial

/-- The engine of a session without a fault to come. -/
theorem withFault_none (h : x.Inv) : x.withFault none = x.engine := by
  rw [withFault, ← h.fault_eq]

/-- A compaction that was not stopped has returned `Ok`. -/
theorem ok_of_afterMaintenance {done : Client} {α : Type} {inputs : List CsrSegmentMeta}
    {result : EStateM.Result EngineError Engine α}
    (houtcome : x.engine.Outcome inputs result) (hfault : x.engine.fault = none)
    (hy : x.afterMaintenance done result = some y) :
    ∃ a e, result = .ok a e ∧ y.engine.current = e.current ∧ y.engine.files = e.files := by
  cases result with
  | ok a e =>
      rw [afterMaintenance, Option.some.injEq] at hy
      subst hy
      exact ⟨a, e, rfl, rfl, rfl⟩
  | error err e =>
      cases err with
      | io => exact absurd hfault houtcome.2.2.2
      | blocked => cases hy
      | decode => cases hy
      | overflow => cases hy

/-- A write that went through has returned `Ok`. -/
theorem ok_of_afterWrite {mk : Timestamp → EdgeRecord}
    {result : EStateM.Result EngineError Engine SnapshotId}
    (hy : x.afterWrite mk result = some y) : ∃ ts, result = .ok ts y.engine := by
  cases result with
  | ok ts e =>
      rw [afterWrite, Option.some.injEq] at hy
      subst hy
      exact ⟨ts, rfl⟩
  | error err e => cases hy

theorem ok_of_afterOk {done : Client} {α : Type} {result : EStateM.Result EngineError Engine α}
    (hy : x.afterOk done result = some y) : ∃ a, result = .ok a y.engine := by
  cases result with
  | ok a e =>
      rw [afterOk, Option.some.injEq] at hy
      subst hy
      exact ⟨a, rfl⟩
  | error err e => cases hy

/-- **Step lemma.** A step leaves `L1` with one version of each edge iff, being a partial compaction,
it starts with its inputs separated. -/
theorem oneVersion_step_iff (h : x.Inv) (hone : x.engine.OneVersion) {op : Op}
    (hop : SingleClient op) (hy : x.step op = some y) : y.engine.OneVersion ↔ x.Separates op := by
  have hcoh := h.tracks.coherent
  have hkeep : ∀ {e : Engine}, Engine.KeepsL1 x.engine e → e.OneVersion := fun hkeeps => by
    rw [Engine.OneVersion, hkeeps.l1Records_eq h.wf]
    exact hone
  have hcongr : ∀ {e : Engine}, y.engine.current = e.current → y.engine.files = e.files →
      (y.engine.OneVersion ↔ e.OneVersion) := fun hcurrent hfiles => by
    rw [Engine.OneVersion, Engine.OneVersion, Engine.l1Records, Engine.l1Records, hcurrent, hfiles]
  cases op with
  | insertEdge src dst edgeType =>
      rw [step, Option.ite_none_left_eq_some] at hy
      obtain ⟨ts, hrun⟩ := ok_of_afterWrite hy.2
      have hts : ∀ t, (EdgeRecord.insert src dst edgeType t).ts = t := fun _ => rfl
      exact iff_of_true (hkeep (Engine.keepsL1_write hts hrun)) trivial
  | deleteEdge src dst edgeType =>
      rw [step, Option.ite_none_left_eq_some] at hy
      obtain ⟨ts, hrun⟩ := ok_of_afterWrite hy.2
      have hts : ∀ t, (EdgeRecord.delete src dst edgeType t).ts = t := fun _ => rfl
      exact iff_of_true (hkeep (Engine.keepsL1_write hts hrun)) trivial
  | getNeighbors src edgeType snapshot =>
      obtain ⟨updates, cache, hrun, -, -⟩ :=
        Engine.getNeighborsTypedInternal_eq h.wf src edgeType snapshot
      rw [step, hrun, afterOk, Option.some.injEq] at hy
      subst hy
      exact iff_of_true (hkeep (.of_eq rfl rfl)) trivial
  | beginFlushActive =>
      rw [step, Option.ite_none_left_eq_some] at hy
      obtain ⟨u, hrun⟩ := ok_of_afterOk hy.2
      exact iff_of_true (hkeep (Engine.keepsL1_beginFlushActive hrun)) trivial
  | finishFlushActive fault =>
      obtain rfl : fault = none := hop
      rw [step, Option.ite_none_right_eq_some, withFault_none h] at hy
      obtain ⟨u, e, hrun, hcurrent, hfiles⟩ := ok_of_afterMaintenance
        (Engine.finishFlushActive_outcome h.wf hcoh) h.fault_eq hy.2
      rw [hcongr hcurrent hfiles]
      -- a compaction of all of `L0` merges `L1` as well; otherwise `L1` is kept
      exact iff_of_true
        ((Engine.finishFlushActive_l1 h.wf hcoh h.fault_eq hrun).elim hkeep id) trivial
  | compactL0ToL1 fault =>
      obtain rfl : fault = none := hop
      rw [step, Option.ite_none_left_eq_some, withFault_none h] at hy
      obtain ⟨output, e, hrun, hcurrent, hfiles⟩ := ok_of_afterMaintenance
        (Engine.compactL0ToL1Inner_outcome h.wf hcoh true) h.fault_eq hy.2
      rw [hcongr hcurrent hfiles]
      exact iff_of_true
        ((Engine.compactL0ToL1Inner_l1 h.wf hcoh h.fault_eq hrun).elim hkeep id) trivial
  | compactL0PartitionToL1 fault srcLabel edgeType =>
      obtain rfl : fault = none := hop
      rw [step, Option.ite_none_left_eq_some, withFault_none h] at hy
      obtain ⟨outputs, e, hrun, hcurrent, hfiles⟩ := ok_of_afterMaintenance
        (Engine.compactL0TargetToL1_outcome h.wf hcoh _) h.fault_eq hy.2
      rw [hcongr hcurrent hfiles]
      exact Engine.oneVersion_target_iff h.wf hcoh h.fault_eq hone hrun
  | compactL0RangeToL1 fault srcLabel edgeType minSrc maxSrc =>
      obtain rfl : fault = none := hop
      rw [step, Option.ite_none_left_eq_some, withFault_none h] at hy
      obtain ⟨outputs, e, hrun, hcurrent, hfiles⟩ := ok_of_afterMaintenance
        (Engine.compactL0TargetToL1_outcome h.wf hcoh _) h.fault_eq hy.2
      rw [hcongr hcurrent hfiles]
      exact Engine.oneVersion_target_iff h.wf hcoh h.fault_eq hone hrun
  | runFlushTask memgraph =>
      rw [step, Option.ite_none_right_eq_some] at hy
      obtain ⟨u, hrun⟩ := ok_of_afterOk hy.2
      exact iff_of_true (hkeep (Engine.keepsL1_runFlushTask hrun)) trivial
  | reopen config => exact hop.elim

/-- A new store has no `L1` file. -/
theorem oneVersion_create {config : LsmGraphConfig} (hx : create config = some x) :
    x.engine.OneVersion := by
  obtain ⟨e, hrun, -, hrecords, -⟩ := Engine.openDir_spec config Engine.emptyDir [] nofun
  rw [create, hrun, Option.some.injEq] at hx
  subst hx
  suffices hnil : e.l1Records = [] by
    rw [Engine.OneVersion, hnil]
    exact List.nodup_nil
  refine List.eq_nil_iff_forall_not_mem.mpr fun r hr => ?_
  obtain ⟨m, hm, hr⟩ := List.mem_flatMap.mp hr
  have hmem : r ∈ e.records := Or.inr ⟨m, Version.mem_files.mpr ⟨1, hm⟩, hr⟩
  rw [hrecords] at hmem
  obtain ⟨m', hm', -⟩ := hmem
  exact absurd hm' List.not_mem_nil

/-- **`L1` holds one version of each edge** in every state of a run whose partial compactions start
with their inputs separated; and where that is not so, the next state has an edge with two versions. -/
theorem oneVersion_of_reaches {config : LsmGraphConfig} {x₀ : Session}
    (hcreate : create config = some x₀)
    (hrun : Reaches step (fun z op => SingleClient op ∧ z.Separates op) x₀ x) :
    x.engine.OneVersion ∧ ∀ op y, SingleClient op → x.step op = some y →
      (y.engine.OneVersion ↔ x.Separates op) := by
  have hinv : x.Inv ∧ x.engine.OneVersion := by
    refine hrun.invariant (I := fun z => z.Inv ∧ z.engine.OneVersion)
      ⟨inv_create hcreate, oneVersion_create hcreate⟩ fun z op y hz hP hy => ?_
    exact ⟨inv_step hz.1 hy, (oneVersion_step_iff hz.1 hz.2 hP.1 hy).mpr hP.2⟩
  exact ⟨hinv.2, fun op y hop hy => oneVersion_step_iff hinv.1 hinv.2 hop hy⟩

/-- An edge of type 7 in `L1`, and a newer record of it in a mixed `L0` file. -/
def mixedRun : List Op :=
  [.insertEdge 1 2 7, .beginFlushActive, .runFlushTask 0, .finishFlushActive none,
    .compactL0ToL1 none, .insertEdge 1 2 7, .insertEdge 1 3 5, .beginFlushActive, .runFlushTask 1,
    .finishFlushActive none]

theorem oneVersion_of_reaches_mixed :
    ∃ x₀, create { graphAwareL0 := true } = some x₀ ∧
      ∃ x, run step (fun z op => SingleClient op ∧ z.Separates op) x₀
          (mixedRun ++ [.compactL0PartitionToL1 none 0 (some 7)]) = some x ∧
        (x.engine.OneVersion ∧ ∀ op y, SingleClient op → x.step op = some y →
          (y.engine.OneVersion ↔ x.Separates op)) := by
  have hrun : ((create { graphAwareL0 := true }).bind fun x₀ =>
      run step (fun z op => SingleClient op ∧ z.Separates op) x₀
        (mixedRun ++ [.compactL0PartitionToL1 none 0 (some 7)])).isSome := by
    decide +kernel
  obtain ⟨x₀, x, h₀, hx⟩ := exists_run_of_isSome hrun
  exact ⟨x₀, h₀, x, hx, oneVersion_of_reaches h₀ (reaches_of_run hx)⟩

/-- **A partial compaction can leave two versions of an edge in `L1`.** The target has type 5, the
`L0` file is mixed, and the `L1` file of type 7 stays. -/
theorem two_versions :
    ∃ x₀, create { graphAwareL0 := true } = some x₀ ∧
      ∃ x, run step (fun _ op => SingleClient op) x₀
          (mixedRun ++ [.compactL0PartitionToL1 none 0 (some 5)]) = some x ∧
        ¬ x.engine.OneVersion := by
  have hrun : ((create { graphAwareL0 := true }).bind fun x₀ =>
      run step (fun _ op => SingleClient op) x₀
        (mixedRun ++ [.compactL0PartitionToL1 none 0 (some 5)])).any
          fun x => decide (¬ x.engine.OneVersion) := by
    decide +kernel
  obtain ⟨x, hx, hversions⟩ := (Option.any_eq_true _ _).mp hrun
  obtain ⟨x₀, h₀, hx⟩ := Option.bind_eq_some_iff.mp hx
  exact ⟨x₀, h₀, x, hx, of_decide_eq_true hversions⟩

end Session

end LsmGraph
