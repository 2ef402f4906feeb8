import LsmGraph.Concurrent.Sound

/-! # The reachable states of the concurrent engine

Every step keeps `Sys.Sound` and `Sys.Roles` (`sound_step`), whoever takes it and whatever fails, and
an engine that was just opened has them (`Opened.sound`); so they hold in every state reached
(`sound_of_reaches`). -/

namespace LsmGraph

open KeyedSort ErrorState CsrReader Transition

/-! ## An engine that was just opened -/

namespace Engine

variable {e : Engine}

/-- What holds of an engine that was just opened: its memgraph is empty, and its version and its index
are those of the live files. -/
structure Fresh (e : Engine) : Prop where
  keeps : e.Keeps {m | m ∈ e.current.files}
  live_iff : ∀ m, m ∈ e.liveFiles ↔ m ∈ e.current.files
  coherent : Coherent (fileRecords e.files e.current.files)
  ts_le : ∀ r ∈ fileRecords e.files e.current.files, r.ts ≤ e.timestamp
  index_eq : e.index = indexOf e.files e.current
  empty : ∀ id r, ¬ (e.heap id).Stores r
  memgraphs_eq : e.current.memgraphs = [e.active]
  nextMemGraphId_eq : e.nextMemGraphId = e.active + 1
  flushTasks_eq : e.flushTasks = []
  nodup : ∀ i, (e.current.level i).Nodup

theorem fresh_of_openDir {config : LsmGraphConfig} {files : StoreFiles}
    {manifest : List ManifestRecord} (hread : ∀ m ∈ (Manifest.load manifest).liveFiles, Readable files m)
    (hcoh : Coherent (fileRecords files (Manifest.load manifest).liveFiles))
    (hopen : openDir config files manifest = .ok () e) : e.Fresh := by
  have hintact := intact_initial config hread
  have hcurrent : ∀ m, m ∈ (initial config files manifest).current.files ↔
      m ∈ (Manifest.load manifest).liveFiles := fun _ => mem_files_initial
  have hupper : ∀ m ∈ (initial config files manifest).current.upperFiles,
      m ∈ {m | m ∈ (Manifest.load manifest).liveFiles} ∧ Readable files m := by
    intro m hm
    have hlive := (hcurrent m).mp (Version.mem_files_iff.mpr (Or.inr hm))
    exact ⟨hlive, hread m hlive⟩
  obtain ⟨cache, hbuild, hgrows⟩ := buildIndex_spec hintact.injOn hupper hintact.agrees
  have heq := (rebuildIndex_of_build hbuild).symm.trans hopen
  cases heq
  have hfiles : {m | m ∈ (initial config files manifest).current.files} =
      {m | m ∈ (Manifest.load manifest).liveFiles} := Set.ext hcurrent
  have hrecords : fileRecords files (initial config files manifest).current.files =
      fileRecords files (Manifest.load manifest).liveFiles := by
    ext r
    simp only [fileRecords, Set.mem_ofPred_eq, hcurrent]
  have hts : ∀ r ∈ fileRecords files (Manifest.load manifest).liveFiles,
      r.ts ≤ (Manifest.load manifest).maxTs := by
    rintro r ⟨m, hm, hr⟩
    exact ((hread m hm).ts_le_maxTs hr).trans (Manifest.maxTs_le_maxTs hm)
  have hintact' := hintact.withCache hgrows
  have hlive : (Manifest.load manifest).liveFiles.Nodup :=
    (Manifest.wf_replay manifest).ascending.imp fun hlt heq => absurd (congrArg _ heq) hlt.ne
  refine
    { keeps := ?_
      live_iff := fun m => (hcurrent m).symm
      coherent := hrecords ▸ hcoh
      ts_le := fun r hr => hts r (hrecords.le hr)
      index_eq := rfl
      empty := fun _ r => MemGraph.not_stores_new _ _ r
      memgraphs_eq := rfl
      nextMemGraphId_eq := rfl
      flushTasks_eq := rfl
      nodup := fun i => (perm_getD_splitLevels _ _ _).nodup_iff.mpr (hlive.filter _) }
  show Keeps _ {m | m ∈ (initial config files manifest).current.files}
  rw [hfiles]
  exact
    { fault_eq := rfl
      readable := hread
      fileId_lt := hintact.fileId_lt
      injOn := hintact.injOn
      cached_mem := fun id metadata hid => by
        rcases hgrows id metadata hid with hid | ⟨m, hm, hmid, -⟩
        · simp [initial, CsrMetadataCache.new] at hid
        · exact ⟨m, hm, hmid⟩
      agrees := hintact'.agrees
      live_mem := fun m hm => hm
      index_mem := fun src m hm => (hupper m (mem_indexOf.mp hm).1).1
      placed := fun i m hm => (mem_level_initial config files).mp hm
      memgraph := fun id => MemGraph.wf_new _ _
      active_lt := Nat.zero_lt_one }

end Engine

namespace Sys

/-- An engine that is opened on a directory some client has worked with is fresh. -/
theorem Opened.fresh {e : Engine} (h : Opened e) : e.Fresh := by
  obtain ⟨config, x₀, x, config', hcreate, hrun, hopen⟩ := h
  have hinv := Session.inv_of_reaches hrun (Session.inv_create hcreate)
  refine Engine.fresh_of_openDir (fun m hm => hinv.wf.intact.readable m (Or.inr hm)) ?_ hopen
  exact hinv.tracks.ascending.coherent.mono fun r hr => hinv.tracks.live_sub r hr

variable {x y : Sys} {K K' : Set CsrSegmentMeta} {c : CallId} {call : Call} {p : Party}
  {kind : JobKind} {stage : Stage} {progress : Progress} {e e' : Engine}

@[simp] theorem setCall_self : (x.setCall c call).calls c = call := Function.update_self _ _ _

theorem setCall_of_ne {c' : CallId} (h : c' ≠ c) : (x.setCall c call).calls c' = x.calls c' :=
  Function.update_of_ne h _ _

@[simp] theorem setJob_self {j : Option Job} : (x.setJob p j).jobs p = j := Function.update_self _ _ _

theorem setJob_of_ne {q : Party} {j : Option Job} (h : q ≠ p) : (x.setJob p j).jobs q = x.jobs q :=
  Function.update_of_ne h _ _

/-! ## Jobs begin and go on -/

/-- The engine after a step of a job that publishes nothing. -/
theorem effect_current {fault : Option Bool} {progress : Progress}
    (h : kind.Effect fault e stage progress e') :
    e'.current = e.current ∨
      ∃ old outputs, stage = .publish old outputs ∧ progress = .on .rebuild ∧
        e' = { e with current := kind.next old outputs } := by
  cases h with
  | @publish old outputs => exact Or.inr ⟨old, outputs, rfl, rfl, rfl⟩
  | @writeFails fileId segmentEdges segments outputs durable hfault =>
      cases durable with
      | true => exact Or.inl rfl
      | false => exact Or.inl rfl
  | @commitFails m segments outputs durable hfault =>
      cases durable with
      | true => exact Or.inl rfl
      | false => exact Or.inl rfl
  | @deleteFails n m outputs durable hm hfault =>
      cases durable with
      | true => exact Or.inl rfl
      | false => exact Or.inl rfl
  | _ => exact Or.inl rfl

theorem setJob_cases {q : Party} {j : Option Job} {j' : Job} (h : (x.setJob p j).jobs q = some j') :
    q = p ∧ j = some j' ∨ q ≠ p ∧ x.jobs q = some j' := by
  by_cases hq : q = p
  · subst hq
    exact Or.inl ⟨rfl, setJob_self.symm.trans h⟩
  · exact Or.inr ⟨hq, (setJob_of_ne hq).symm.trans h⟩

/-- When a job has ended, the others are where they were. -/
theorem setJob_ended {q : Party} {j : Job} (h : (x.setJob p none).jobs q = some j) :
    q ≠ p ∧ x.jobs q = some j :=
  (setJob_cases h).resolve_left fun heq => absurd heq.2 nofun

/-- A job that was just begun is at its load, and the others are where they were. -/
theorem setJob_begun {q : Party} {j : Job}
    (h : (x.setJob p (some { kind := kind, stage := .load })).jobs q = some j) :
    x.jobs q = some j ∨ j = { kind := kind, stage := .load } := by
  rcases setJob_cases h with ⟨-, heq⟩ | ⟨-, hold⟩
  · exact Or.inr (Option.some.inj heq).symm
  · exact Or.inl hold

/-- A job begins. -/
theorem Sound.begin (h : x.Sound K) (hplaced : kind.Placed x.engine K) :
    (x.setJob p (some { kind := kind, stage := .load })).Sound K := by
  refine
    { h with
      job := fun p' j' hj' => ?_
      reserved_inj := fun p₁ j₁ id hj₁ hid₁ p₂ j₂ hj₂ hid₂ => ?_
      ledger := { h.ledger with } }
  · rcases setJob_cases hj' with ⟨-, heq⟩ | ⟨-, hold⟩
    · cases heq
      exact .idle hplaced rfl rfl rfl nofun id
    · exact h.job p' j' hold
  · rcases setJob_cases hj₁ with ⟨-, heq⟩ | ⟨-, hold₁⟩
    · cases heq
      exact absurd hid₁ nofun
    · rcases setJob_cases hj₂ with ⟨-, heq⟩ | ⟨-, hold₂⟩
      · cases heq
        exact absurd hid₂ nofun
      · exact h.reserved_inj p₁ j₁ id hold₁ hid₁ p₂ j₂ hold₂ hid₂

/-- What a compaction selects lies in the current version. -/
theorem selection_spec {request : Request} (h : selection e request = some kind) :
    (∀ m, kind ≠ .flush m) ∧ ∀ m ∈ kind.inputs, m ∈ e.current.files := by
  have hlevel : ∀ {m : CsrSegmentMeta} (i : Nat), m ∈ e.current.level i → m ∈ e.current.files :=
    fun i hm => Version.mem_files.mpr ⟨i, hm⟩
  cases request with
  | full force =>
      simp only [selection] at h
      split at h
      · exact absurd h nofun
      · split at h
        · exact absurd h nofun
        · cases h
          refine ⟨nofun, fun m hm => ?_⟩
          rcases List.mem_append.mp hm with hm | hm
          · exact hlevel _ hm
          · exact hlevel _ hm
  | target target =>
      simp only [selection] at h
      split at h
      · exact absurd h nofun
      · cases h
        refine ⟨nofun, fun m hm => ?_⟩
        rcases List.mem_append.mp hm with hm | hm
        · exact hlevel _ (List.mem_of_mem_filter hm)
        · exact hlevel _ (List.mem_of_mem_filter hm)

theorem selection_placed {request : Request} (hplaced : e.current.Placed K)
    (h : selection e request = some kind) : kind.Placed e K := by
  have hlevel : ∀ {m : CsrSegmentMeta} (level : LevelId), m ∈ e.current.level level.toNat →
      m ∈ K ∧ m.level = level := fun level hm =>
    ⟨(hplaced _ _ hm).1, UInt8.toNat_inj.mp (hplaced _ _ hm).2⟩
  cases request with
  | full force =>
      simp only [selection] at h
      split at h
      · exact absurd h nofun
      · rename_i hne
        split at h
        · exact absurd h nofun
        · cases h
          exact ⟨hne, fun m hm => hlevel L0 hm, fun m hm => hlevel L1 hm⟩
  | target target =>
      simp only [selection] at h
      split at h
      · exact absurd h nofun
      · rename_i hne
        cases h
        exact ⟨hne, fun m hm => hlevel L0 (List.mem_of_mem_filter hm),
          fun m hm => hlevel L1 (List.mem_of_mem_filter hm)⟩

/-- The states that differ in what a job did to the engine. -/
theorem Ledger.advance (h : x.Sound K) (hplaced : kind.Placed x.engine K)
    (hadvances : kind.Advances x.engine e K K' stage progress) :
    ({ x with engine := e } : Sys).Ledger K' where
  coherent := h.ledger.coherent
  ts_le r hr := (h.ledger.ts_le r hr).trans_eq hadvances.memory.timestamp_eq.symm
  edge_le c edge hc := (h.ledger.edge_le c edge hc).trans_eq hadvances.memory.timestamp_eq.symm
  edge_new := h.ledger.edge_new
  edge_inj := h.ledger.edge_inj
  stored id r hr := by
    refine h.ledger.stored id r ?_
    rwa [← hadvances.memory.heap_eq]
  known m hm r hr := by
    rcases hadvances.new m hm with hm | ⟨-, hsource⟩
    · rw [hadvances.ext.segmentRecords_eq hm] at hr
      exact h.ledger.known m hm r hr
    · exact h.source_sub hplaced (hsource r hr)
  recovered := h.ledger.recovered
  complete r hr := by
    rw [hadvances.memory.nextMemGraphId_eq, hadvances.memory.heap_eq]
    exact h.ledger.complete r hr

/-- A job disturbs no other. -/
theorem Sound.advance_others (h : x.Sound K) {j : Job} (hj : x.jobs p = some j)
    (hadvances : j.kind.Advances x.engine e K K' j.stage progress) {p' : Party} (hp : p' ≠ p)
    {j' : Job} (hj' : x.jobs p' = some j') : Job.Sound e K' j'.kind j'.stage := by
  refine (h.job p' j' hj').mono hadvances.ext fun id hid m hm => ?_
  rcases hadvances.new m hm with hm | ⟨hreserved, -⟩
  · exact ((h.job p' j' hj').reserved id hid).2 m hm
  · rintro rfl
    exact hp (h.reserved_inj p' j' m.fileId hj' hid p j hj hreserved)

/-- **A job goes on.** -/
theorem Sound.goOn (h : x.Sound K) {j : Job} (hj : x.jobs p = some j) {stage' : Stage}
    (hadvances : j.kind.Advances x.engine e K K' j.stage (.on stage')) :
    (({ x with engine := e } : Sys).setJob p (some { kind := j.kind, stage := stage' })).Sound K' := by
  have hplaced := (h.job p j hj).placed
  -- an id that was reserved before is below the one that is reserved now
  have hfresh : ∀ id, stage'.reserved = some id → ∀ p' j', x.jobs p' = some j' →
      j'.stage.reserved ≠ some id := fun id hid p' j' hj' hid' =>
    absurd ((h.job p' j' hj').reserved id hid').1 (hadvances.reserved stage' id rfl hid).not_gt
  refine
    { keeps := hadvances.keeps
      job := fun p' j' hj' => ?_
      reserved_inj := fun p₁ j₁ id hj₁ hid₁ p₂ j₂ hj₂ hid₂ => ?_
      version := fun c v hv => (h.version c v hv).mono hadvances.ext.known
      ledger := { Ledger.advance h hplaced hadvances with } }
  · rcases setJob_cases hj' with ⟨-, heq⟩ | ⟨hp, hold⟩
    · cases heq
      exact hadvances.job stage' rfl
    · exact h.advance_others hj hadvances hp hold
  · rcases setJob_cases hj₁ with ⟨hp₁, heq⟩ | ⟨-, hold₁⟩
    · cases heq
      rcases setJob_cases hj₂ with ⟨hp₂, -⟩ | ⟨-, hold₂⟩
      · exact hp₁.trans hp₂.symm
      · exact absurd hid₂ (hfresh id hid₁ p₂ j₂ hold₂)
    · rcases setJob_cases hj₂ with ⟨-, heq⟩ | ⟨-, hold₂⟩
      · cases heq
        exact absurd hid₁ (hfresh id hid₂ p₁ j₁ hold₁)
      · exact h.reserved_inj p₁ j₁ id hold₁ hid₁ p₂ j₂ hold₂ hid₂

/-- **A job ends.** -/
theorem Sound.drop (h : x.Sound K) {j : Job} (hj : x.jobs p = some j) {ok : Bool}
    (hadvances : j.kind.Advances x.engine e K K' j.stage (.off ok)) :
    (({ x with engine := e } : Sys).setJob p none).Sound K' := by
  have hplaced := (h.job p j hj).placed
  have hcase : ∀ p' j', (({ x with engine := e } : Sys).setJob p none).jobs p' = some j' →
      p' ≠ p ∧ x.jobs p' = some j' := fun p' j' hj' => setJob_ended hj'
  exact
    { keeps := hadvances.keeps
      job := fun p' j' hj' => h.advance_others hj hadvances (hcase p' j' hj').1 (hcase p' j' hj').2
      reserved_inj := fun p₁ j₁ id hj₁ hid₁ p₂ j₂ hj₂ hid₂ =>
        h.reserved_inj p₁ j₁ id (hcase p₁ j₁ hj₁).2 hid₁ p₂ j₂ (hcase p₂ j₂ hj₂).2 hid₂
      version := fun c v hv => (h.version c v hv).mono hadvances.ext.known
      ledger := { Ledger.advance h hplaced hadvances with } }

/-! ## Roles -/

/-- A call that does not compact goes on to where it has nothing to spawn. -/
theorem Roles.setCall (h : x.Roles) (hold : ∀ began, x.calls c ≠ .compacting began)
    (hnew : call.spawning = none) : (x.setCall c call).Roles where
  task := h.task
  call c' j hj := by
    obtain ⟨⟨began, hcall⟩, hkind⟩ := h.call c' j hj
    have hne : c' ≠ c := fun heq => hold began (heq ▸ hcall)
    exact ⟨⟨began, (setCall_of_ne hne).trans hcall⟩, hkind⟩
  spawning c' m hm := by
    by_cases hcc : c' = c
    · subst hcc
      rw [setCall_self, hnew] at hm
      cases hm
    · rw [setCall_of_ne hcc] at hm
      exact h.spawning c' m hm
  spawning_inj c₁ m hm₁ c₂ hm₂ := by
    have hcase : ∀ c', ((x.setCall c call).calls c').spawning = some m →
        (x.calls c').spawning = some m := by
      intro c' hm
      by_cases hcc : c' = c
      · subst hcc
        rw [setCall_self, hnew] at hm
        cases hm
      · rwa [setCall_of_ne hcc] at hm
    exact h.spawning_inj c₁ m (hcase c₁ hm₁) c₂ (hcase c₂ hm₂)
  spawned := h.spawned

/-- Roles do not depend on more of the engine than which memgraphs are frozen. -/
theorem Roles.withEngine (h : x.Roles) (hfrozen : ∀ m, x.engine.Frozen m → e.Frozen m) :
    ({ x with engine := e } : Sys).Roles where
  task := h.task
  call := h.call
  spawning c m hm := ⟨hfrozen m (h.spawning c m hm).1, (h.spawning c m hm).2⟩
  spawning_inj := h.spawning_inj
  spawned m hm := hfrozen m (h.spawned m hm)

/-- A step that only concerns the call `c` and leaves the frozen memgraphs alone. -/
theorem Roles.turn (h : x.Roles) (hold : ∀ began, x.calls c ≠ .compacting began)
    (hnew : call.spawning = none) (hjobs : y.jobs = x.jobs) (hended : y.ended = x.ended)
    (hcalls : y.calls = Function.update x.calls c call)
    (hfrozen : ∀ m, x.engine.Frozen m → y.engine.Frozen m) : y.Roles := by
  have hy := (h.withEngine hfrozen).setCall hold hnew
  obtain ⟨engine, jobs, ended, calls, locks, inserted, recovered⟩ := y
  cases hjobs
  cases hended
  cases hcalls
  exact { hy with }

/-- **A rotation**: the call has the old active memgraph to spawn a flush for. -/
theorem Roles.rotate (h : x.Roles) (hactive : x.engine.active < x.engine.nextMemGraphId)
    (hold : ∀ began, x.calls c ≠ .compacting began) (he : e.nextMemGraphId = x.engine.nextMemGraphId + 1)
    (he' : e.active = x.engine.nextMemGraphId) (hnew : call.spawning = some x.engine.active) :
    (({ x with engine := e } : Sys).setCall c call).Roles := by
  have hfrozen : ∀ m, m < x.engine.nextMemGraphId → e.Frozen m := by
    intro m hm
    rw [Engine.Frozen, he, he']
    exact ⟨hm.trans (Nat.lt_succ_self _), hm.ne⟩
  -- nobody is concerned with the active memgraph yet
  have hfree : x.jobs (.task x.engine.active) = none ∧ x.ended x.engine.active = none := by
    by_contra hbusy
    rw [not_and_or] at hbusy
    exact (h.spawned _ hbusy).2 rfl
  have hcase : ∀ c' m, ((({ x with engine := e } : Sys).setCall c call).calls c').spawning = some m →
      c' = c ∧ m = x.engine.active ∨ c' ≠ c ∧ (x.calls c').spawning = some m := by
    intro c' m hm
    by_cases hcc : c' = c
    · subst hcc
      rw [setCall_self, hnew, Option.some.injEq] at hm
      exact Or.inl ⟨rfl, hm.symm⟩
    · rw [setCall_of_ne hcc] at hm
      exact Or.inr ⟨hcc, hm⟩
  refine
    { task := h.task
      call := fun c' j hj => ?_
      spawning := fun c' m hm => ?_
      spawning_inj := fun c₁ m hm₁ c₂ hm₂ => ?_
      spawned := fun m hm => hfrozen m (h.spawned m hm).1 }
  · obtain ⟨⟨began, hcall⟩, hkind⟩ := h.call c' j hj
    have hne : c' ≠ c := fun heq => hold began (heq ▸ hcall)
    exact ⟨⟨began, (setCall_of_ne hne).trans hcall⟩, hkind⟩
  · rcases hcase c' m hm with ⟨-, rfl⟩ | ⟨-, hm⟩
    · exact ⟨hfrozen _ hactive, hfree⟩
    · exact ⟨hfrozen m (h.spawning c' m hm).1.1, (h.spawning c' m hm).2⟩
  · rcases hcase c₁ m hm₁ with ⟨hc₁, hm⟩ | ⟨-, hm₁⟩
    · rcases hcase c₂ m hm₂ with ⟨hc₂, -⟩ | ⟨-, hm₂⟩
      · exact hc₁.trans hc₂.symm
      · exact absurd hm (h.spawning c₂ m hm₂).1.2
    · rcases hcase c₂ m hm₂ with ⟨-, hm⟩ | ⟨-, hm₂⟩
      · exact absurd hm (h.spawning c₁ m hm₁).1.2
      · exact h.spawning_inj c₁ m hm₁ c₂ hm₂

/-- Only a call that compacts has a job of its own. -/
theorem Roles.jobs_call (h : x.Roles) (hcall : ∀ began, x.calls c ≠ .compacting began) :
    x.jobs (.call c) = none := by
  by_contra hsome
  obtain ⟨j, hj⟩ := Option.ne_none_iff_exists'.mp hsome
  obtain ⟨⟨began, hcompacting⟩, -⟩ := h.call c j hj
  exact hcall began hcompacting

/-- A job that goes on has the same role. -/
theorem Roles.goOn (h : x.Roles) (hj : x.jobs p = some { kind := kind, stage := stage })
    (stage' : Stage) : (x.setJob p (some { kind := kind, stage := stage' })).Roles where
  task m j hj' := by
    rcases setJob_cases hj' with ⟨hp, heq⟩ | ⟨-, hold⟩
    · cases heq
      subst hp
      have hrole := h.task m _ hj
      exact hrole
    · exact h.task m j hold
  call c j hj' := by
    rcases setJob_cases hj' with ⟨hp, heq⟩ | ⟨-, hold⟩
    · cases heq
      subst hp
      have hrole := h.call c _ hj
      exact hrole
    · exact h.call c j hold
  spawning c m hm := by
    obtain ⟨hfrozen, hnone, hended⟩ := h.spawning c m hm
    have hne : Party.task m ≠ p := by
      rintro rfl
      cases hnone.symm.trans hj
    exact ⟨hfrozen, (setJob_of_ne hne).trans hnone, hended⟩
  spawning_inj := h.spawning_inj
  spawned m hm := by
    refine h.spawned m (hm.imp_left fun hjob hnone => ?_)
    have hne : Party.task m ≠ p := by
      rintro rfl
      cases hnone.symm.trans hj
    exact hjob ((setJob_of_ne hne).trans hnone)

/-- A call spawns the flush of the memgraph it has rotated out. -/
theorem Roles.spawn (h : x.Roles) {m : MemGraphId} (hcall : (x.calls c).spawning = some m)
    (hnew : call.spawning = none) (stage : Stage) :
    ((x.setJob (.task m) (some { kind := .flush m, stage := stage })).setCall c call).Roles := by
  have hcase : ∀ c' m', (((x.setJob (.task m) (some { kind := .flush m, stage := stage })).setCall c
      call).calls c').spawning = some m' → c' ≠ c ∧ (x.calls c').spawning = some m' := by
    intro c' m' hm'
    by_cases hcc : c' = c
    · subst hcc
      rw [setCall_self, hnew] at hm'
      cases hm'
    · rw [setCall_of_ne hcc] at hm'
      exact ⟨hcc, hm'⟩
  refine
    { task := fun m' j hj => ?_
      call := fun c' j hj => ?_
      spawning := fun c' m' hm' => ?_
      spawning_inj := fun c₁ m' hm₁ c₂ hm₂ =>
        h.spawning_inj c₁ m' (hcase c₁ m' hm₁).2 c₂ (hcase c₂ m' hm₂).2
      spawned := fun m' hm' => ?_ }
  · rcases setJob_cases hj with ⟨hp, heq⟩ | ⟨-, hold⟩
    · cases heq
      cases hp
      rfl
    · exact h.task m' j hold
  · have hj : (x.setJob (.task m) (some { kind := .flush m, stage := stage })).jobs (.call c') =
      some j := hj
    rcases setJob_cases hj with ⟨hp, -⟩ | ⟨-, hold⟩
    · cases hp
    · obtain ⟨⟨began, hcompacting⟩, hkind⟩ := h.call c' j hold
      have hne : c' ≠ c := by
        rintro rfl
        rw [hcompacting] at hcall
        cases hcall
      exact ⟨⟨began, (setCall_of_ne hne).trans hcompacting⟩, hkind⟩
  · obtain ⟨hcc, hold⟩ := hcase c' m' hm'
    obtain ⟨hfrozen, hnone, hended⟩ := h.spawning c' m' hold
    have hne : Party.task m' ≠ .task m := by
      rintro ⟨⟩
      exact hcc (h.spawning_inj c' m hold c hcall)
    exact ⟨hfrozen, (setJob_of_ne hne).trans hnone, hended⟩
  · by_cases hm : m' = m
    · subst hm
      exact (h.spawning c m' hcall).1
    · have hne : Party.task m' ≠ .task m := fun heq => hm (Party.task.inj heq)
      exact h.spawned m' (hm'.imp_left fun hjob hnone => hjob ((setJob_of_ne hne).trans hnone))

/-- A call begins to compact. -/
theorem Roles.select (h : x.Roles) (hkind : ∀ m, kind ≠ .flush m)
    (hold : (x.calls c).spawning = none) (began : Option (List EdgeRecord)) :
    ((x.setJob (.call c) (some { kind := kind, stage := stage })).setCall c (.compacting began)).Roles := by
  have hcase : ∀ c' m', (((x.setJob (.call c) (some { kind := kind, stage := stage })).setCall c
      (.compacting began)).calls c').spawning = some m' → (x.calls c').spawning = some m' := by
    intro c' m' hm'
    by_cases hcc : c' = c
    · subst hcc
      rw [setCall_self] at hm'
      cases hm'
    · rwa [setCall_of_ne hcc] at hm'
  have htask : ∀ m, (x.setJob (.call c) (some { kind := kind, stage := stage })).jobs (.task m) =
      x.jobs (.task m) := fun m => setJob_of_ne nofun
  refine
    { task := fun m j hj => h.task m j ((htask m).symm.trans hj)
      call := fun c' j hj => ?_
      spawning := fun c' m' hm' => ?_
      spawning_inj := fun c₁ m' hm₁ c₂ hm₂ =>
        h.spawning_inj c₁ m' (hcase c₁ m' hm₁) c₂ (hcase c₂ m' hm₂)
      spawned := fun m hm => h.spawned m (hm.imp_left fun hjob hnone => hjob ((htask m).trans hnone)) }
  · rcases setJob_cases hj with ⟨hp, heq⟩ | ⟨hne, hold⟩
    · cases hp
      cases heq
      exact ⟨⟨began, setCall_self⟩, hkind⟩
    · obtain ⟨⟨began', hcompacting⟩, hkind⟩ := h.call c' j hold
      have hcc : c' ≠ c := fun heq => hne (congrArg Party.call heq)
      exact ⟨⟨began', (setCall_of_ne hcc).trans hcompacting⟩, hkind⟩
  · obtain ⟨hfrozen, hnone, hended⟩ := h.spawning c' m' (hcase c' m' hm')
    exact ⟨hfrozen, (htask m').trans hnone, hended⟩

/-- What the end of a job leaves behind. -/
theorem finish_call (h : x.Roles) {j : Job} (hj : x.jobs (.call c) = some j) (ok : Bool) :
    ∃ began, x.calls c = .compacting began ∧ x.finish (.call c) ok =
      (x.setJob (.call c) none).setCall c (if ok then returned began else .idle) := by
  obtain ⟨⟨began, hcall⟩, -⟩ := h.call c j hj
  refine ⟨began, hcall, ?_⟩
  simp only [finish, setJob, hcall]

theorem finish_engine (p : Party) (ok : Bool) : (x.finish p ok).engine = x.engine := by
  cases p with
  | task m => rfl
  | call c =>
      cases hcall : x.calls c with
      | _ => simp only [finish, setJob, hcall, setCall]

theorem finish_jobs (p : Party) (ok : Bool) : (x.finish p ok).jobs = (x.setJob p none).jobs := by
  cases p with
  | task m => rfl
  | call c =>
      cases hcall : x.calls c with
      | _ => simp only [finish, setJob, hcall, setCall]

theorem finish_recovered (p : Party) (ok : Bool) : (x.finish p ok).recovered = x.recovered := by
  cases p with
  | task m => rfl
  | call c =>
      cases hcall : x.calls c with
      | _ => simp only [finish, setJob, hcall, setCall]

theorem proceed_engine (p : Party) (kind : JobKind) (progress : Progress) :
    (x.proceed p kind progress).engine = x.engine := by
  cases progress with
  | on stage => rfl
  | off ok => exact finish_engine p ok

theorem proceed_jobs (p : Party) (kind : JobKind) (progress : Progress) :
    ∃ j', (x.proceed p kind progress).jobs = (x.setJob p j').jobs := by
  cases progress with
  | on stage => exact ⟨_, rfl⟩
  | off ok => exact ⟨none, finish_jobs p ok⟩

theorem proceed_recovered (p : Party) (kind : JobKind) (progress : Progress) :
    (x.proceed p kind progress).recovered = x.recovered := by
  cases progress with
  | on stage => rfl
  | off ok => exact finish_recovered p ok

/-- After a compaction a call has nothing to write, read or spawn. -/
theorem quiet_ended (began : Option (List EdgeRecord)) (ok : Bool) :
    (if ok then returned began else Call.idle).edge = none ∧
      (if ok then returned began else Call.idle).version = none ∧
      (if ok then returned began else Call.idle).spawning = none := by
  cases ok with
  | false => exact ⟨rfl, rfl, rfl⟩
  | true =>
      cases began with
      | none => exact ⟨rfl, rfl, rfl⟩
      | some began => exact ⟨rfl, rfl, rfl⟩

/-- A job ends, and its role with it. -/
theorem Roles.finish (h : x.Roles) {j : Job} (hj : x.jobs p = some j) (ok : Bool) :
    (x.finish p ok).Roles := by
  have hdrop : ∀ {q j'}, (x.setJob p none).jobs q = some j' → x.jobs q = some j' :=
    fun hq => (setJob_ended hq).2
  have hkept : ∀ {q}, x.jobs q = none → (x.setJob p none).jobs q = none := by
    intro q hq
    by_cases hqp : q = p
    · subst hqp
      exact setJob_self
    · exact (setJob_of_ne hqp).trans hq
  cases p with
  | task m =>
      refine
        { task := fun m' j' hj' => h.task m' j' (hdrop hj')
          call := fun c' j' hj' => h.call c' j' (hdrop hj')
          spawning := fun c' m' hm' => ?_
          spawning_inj := h.spawning_inj
          spawned := fun m' hm' => ?_ }
      · obtain ⟨hfrozen, hnone, hended⟩ := h.spawning c' m' hm'
        -- no call spawns a task that has run
        have hne : m' ≠ m := by
          rintro rfl
          cases hnone.symm.trans hj
        exact ⟨hfrozen, hkept hnone, (Function.update_of_ne hne _ _).trans hended⟩
      · by_cases hmm : m' = m
        · subst hmm
          refine h.spawned m' (Or.inl fun hnone => ?_)
          cases hnone.symm.trans hj
        · refine h.spawned m' (hm'.imp (fun hjob hnone => hjob (hkept hnone)) fun hended hnone =>
            hended ((Function.update_of_ne hmm _ _).trans hnone))
  | call c =>
      obtain ⟨began, hcall, heq⟩ := finish_call h hj ok
      rw [heq]
      -- the call that ended has nothing left to spawn
      have hcase : ∀ c' m', (((x.setJob (.call c) none).setCall c
          (if ok then returned began else .idle)).calls c').spawning = some m' →
            (x.calls c').spawning = some m' := by
        intro c' m' hm'
        by_cases hcc : c' = c
        · subst hcc
          rw [setCall_self, (quiet_ended began ok).2.2] at hm'
          cases hm'
        · rwa [setCall_of_ne hcc] at hm'
      refine
        { task := fun m' j' hj' => h.task m' j' (hdrop hj')
          call := fun c' j' hj' => ?_
          spawning := fun c' m' hm' => ?_
          spawning_inj := fun c₁ m' hm₁ c₂ hm₂ =>
            h.spawning_inj c₁ m' (hcase c₁ m' hm₁) c₂ (hcase c₂ m' hm₂)
          spawned := fun m' hm' => h.spawned m' (hm'.imp_left fun hjob hnone => hjob (hkept hnone)) }
      · obtain ⟨⟨began', hcompacting⟩, hkind⟩ := h.call c' j' (hdrop hj')
        have hne : c' ≠ c := fun heq => (setJob_ended hj').1 (congrArg Party.call heq)
        exact ⟨⟨began', (setCall_of_ne hne).trans hcompacting⟩, hkind⟩
      · obtain ⟨hfrozen, hnone, hended⟩ := h.spawning c' m' (hcase c' m' hm')
        exact ⟨hfrozen, hkept hnone, hended⟩

/-! ## Every step -/

/-- A turn neither begins nor ends a compaction, and leaves nothing to write, read or spawn. -/
theorem Turn.quiet {a : Action} (h : Turn x a c call) :
    (∀ began, x.calls c ≠ .compacting began) ∧ call.edge = none ∧ call.version = none ∧
      call.spawning = none := by
  cases h with
  | flushActive hcall hempty => exact ⟨(fun _ hb => by cases hcall.symm.trans hb), rfl, rfl, rfl⟩
  | waitForFlushes hcall => exact ⟨(fun _ hb => by cases hcall.symm.trans hb), rfl, rfl, rfl⟩
  | compact hcall => exact ⟨(fun _ hb => by cases hcall.symm.trans hb), rfl, rfl, rfl⟩
  | select hcall hnone => exact ⟨(fun _ hb => by cases hcall.symm.trans hb), rfl, rfl, rfl⟩
  | waited hcall hnone => exact ⟨(fun _ hb => by cases hcall.symm.trans hb), rfl, rfl, rfl⟩
  | flushed hcall hnone =>
      refine ⟨(fun _ hb => by cases hcall.symm.trans hb), ?_⟩
      split
      · exact ⟨rfl, rfl, rfl⟩
      · exact ⟨rfl, rfl, rfl⟩
  | awaited hcall hended =>
      refine ⟨(fun _ hb => by cases hcall.symm.trans hb), ?_⟩
      split
      · exact ⟨rfl, rfl, rfl⟩
      · exact ⟨rfl, rfl, rfl⟩
  | @nothing c request began hcall hnone =>
      refine ⟨(fun _ hb => by cases hcall.symm.trans hb), ?_⟩
      cases began with
      | none => exact ⟨rfl, rfl, rfl⟩
      | some began => exact ⟨rfl, rfl, rfl⟩
  | done hcall => exact ⟨(fun _ hb => by cases hcall.symm.trans hb), rfl, rfl, rfl⟩

theorem quiet_of_pushing {m : MemGraphId} (h : call.pushing = some m) :
    call.edge = none ∧ call.version = none ∧ call.spawning = none := by
  cases call with
  | pushingWrite m src => exact ⟨rfl, rfl, rfl⟩
  | pushingFlush m began => exact ⟨rfl, rfl, rfl⟩
  | _ => cases h

theorem Sound.setCall_quiet (h : x.Sound K) (c : CallId) (call : Call) (hedge : call.edge = none)
    (hversion : call.version = none) : (x.setCall c call).Sound K := by
  refine h.setCall hedge fun v hv => ?_
  rw [hversion] at hv
  cases hv

/-- The list of handles concerns nobody's soundness. -/
theorem Sound.withFlushTasks (h : x.Sound K) (tasks : List MemGraphId) :
    ({ x with engine := { x.engine with flushTasks := tasks } } : Sys).Sound K :=
  { h with
    keeps := { h.keeps with }
    job := fun p j hj => (h.job p j hj).mono (.of_same rfl rfl rfl rfl rfl)
      fun id hid => ((h.job p j hj).reserved id hid).2
    ledger := { h.ledger with } }

/-- **Step lemma.** A step keeps everybody sound and in his role; the files known before stay known
and as they are, and so do the frozen memgraphs. -/
theorem sound_step {a : Action} (h : x.Sound K) (hr : x.Roles) (hs : Step x a y) :
    ∃ K', y.Sound K' ∧ x.engine.Extends y.engine K K' ∧ y.Roles := by
  cases hs with
  | @turn a c call hturn =>
      obtain ⟨hold, hedge, hversion, hspawning⟩ := hturn.quiet
      exact ⟨K, h.setCall_quiet c call hedge hversion, .refl _ K,
        hr.setCall hold hspawning⟩
  | @draw a c edge hcall hoverflow hts ha =>
      exact ⟨K, h.draw hoverflow hts, .of_same rfl rfl rfl rfl rfl,
        hr.turn (fun began hb => by cases hcall.symm.trans hb) rfl rfl rfl rfl fun m hm => hm⟩
  | @write c edge hcall hlock =>
      have hedge : (x.calls c).edge = some edge := by rw [hcall]; rfl
      exact ⟨K, h.write hedge rfl rfl, extends_withInserted x.engine edge K,
        hr.turn (fun began hb => by cases hcall.symm.trans hb) rfl rfl rfl rfl fun m hm => hm⟩
  | @writeFull c edge hcall hlock =>
      have hedge : (x.calls c).edge = some edge := by rw [hcall]; rfl
      have hwrite : ({ x with
          engine := x.engine.withInserted edge
          inserted := x.inserted ++ [edge] }.setCall c
            (.spawningWrite x.engine.active edge.src) : Sys).Sound K := h.write hedge rfl rfl
      have hsound := hwrite.rotate
      refine ⟨K, { hsound with ledger := { hsound.ledger with } },
        (extends_withInserted x.engine edge K).trans (extends_withNewActive _ K), ?_⟩
      have hroles : ({ x with engine := (x.engine.withInserted edge).withNewActive }.setCall c
          (.spawningWrite x.engine.active edge.src) : Sys).Roles := hr.rotate h.keeps.active_lt
        (fun began hb => by cases hcall.symm.trans hb) rfl rfl rfl
      exact { hroles with }
  | @flushActive c hcall hfull =>
      have hsound := h.rotate.setCall_quiet c (.spawningFlush x.engine.active x.inserted) rfl rfl
      exact ⟨K, hsound, extends_withNewActive _ K, hr.rotate h.keeps.active_lt
        (fun began hb => by cases hcall.symm.trans hb) rfl rfl rfl⟩
  | @spawn c memgraph call hcall hpushing hwrite hbegan =>
      obtain ⟨hedge, hversion, hspawning⟩ := quiet_of_pushing hpushing
      have hplaced : JobKind.Placed x.engine K (.flush memgraph) := (hr.spawning c memgraph hcall).1
      have hsound := (h.begin (p := .task memgraph) hplaced).setCall_quiet c call hedge hversion
      exact ⟨K, hsound, .refl _ K, hr.spawn hcall hspawning .load⟩
  | @pushWrite c memgraph src hcall =>
      have hsound := (h.withFlushTasks (x.engine.flushTasks ++ [memgraph])).setCall_quiet c .idle rfl rfl
      exact ⟨K, { hsound with ledger := { hsound.ledger with } }, .of_same rfl rfl rfl rfl rfl,
        hr.turn (fun began hb => by cases hcall.symm.trans hb) rfl rfl rfl rfl fun m hm => hm⟩
  | @pushFlush c memgraph began hcall =>
      have hsound := (h.withFlushTasks (x.engine.flushTasks ++ [memgraph])).setCall_quiet c (.waiting none (some began)) rfl rfl
      exact ⟨K, { hsound with ledger := { hsound.ledger with } }, .of_same rfl rfl rfl rfl rfl,
        hr.turn (fun began hb => by cases hcall.symm.trans hb) rfl rfl rfl rfl fun m hm => hm⟩
  | @pop c memgraph request began hcall hlast =>
      have hsound := (h.withFlushTasks x.engine.flushTasks.dropLast).setCall_quiet c (.awaiting memgraph request began) rfl rfl
      exact ⟨K, { hsound with ledger := { hsound.ledger with } }, .of_same rfl rfl rfl rfl rfl,
        hr.turn (fun began hb => by cases hcall.symm.trans hb) rfl rfl rfl rfl fun m hm => hm⟩
  | @select c request began kind hcall hkind =>
      have hspawning : (x.calls c).spawning = none := by rw [hcall]; rfl
      have hsound := (h.begin (p := .call c) (selection_placed h.keeps.placed hkind)).setCall_quiet c (.compacting began) rfl rfl
      exact ⟨K, hsound, .refl _ K, hr.select (selection_spec hkind).1 hspawning began⟩
  | @job p fault kind stage progress e hjob heffect =>
      have hplaced := (h.job p _ hjob).placed
      have hsource := h.source_sub hplaced
      obtain ⟨K', hadvances⟩ := heffect.advances h.keeps (h.job p _ hjob)
        (h.ledger.coherent.mono hsource) fun r hr => h.ledger.ts_le r (hsource hr)
      refine ⟨K', ?_⟩
      cases progress with
      | on stage' =>
          have hroles := hr.goOn hjob stage'
          exact ⟨h.goOn hjob hadvances, hadvances.ext,
            hroles.withEngine fun m hm => (hadvances.ext.frozen m hm).1⟩
      | off ok =>
          have hsound := h.drop hjob hadvances
          have hroles := hr.withEngine fun m hm => (hadvances.ext.frozen m hm).1
          refine ⟨?_, ?_, hroles.finish hjob ok⟩
          · cases p with
            | task m => exact { hsound with ledger := { hsound.ledger with } }
            | call c =>
                obtain ⟨began, -, heq⟩ := finish_call hroles hjob ok
                obtain ⟨hedge, hversion, -⟩ := quiet_ended began ok
                rw [proceed, heq]
                exact hsound.setCall_quiet c _ hedge hversion
          · rw [proceed, finish_engine]
            exact hadvances.ext
  | @getNeighbors c src edgeType snapshot hcall hlock =>
      have hlooking : (x.setCall c (.looking x.engine.current src edgeType snapshot)).Sound K :=
        h.setCall rfl fun v hv => by cases hv; exact h.keeps.placed
      exact ⟨K, { hlooking with ledger := { hlooking.ledger with } }, .refl _ K,
        hr.turn (fun began hb => by cases hcall.symm.trans hb) rfl rfl rfl rfl fun m hm => hm⟩
  | @read c v src edgeType snapshot cache hcall hcache =>
      have hplaced := h.version c v (by rw [hcall]; rfl)
      have hl0 : ∀ m ∈ v.level 0, m ∈ K ∧ Readable x.engine.files m := fun m hm =>
        ⟨(hplaced 0 m hm).1, h.keeps.readable m (hplaced 0 m hm).1⟩
      have hindex : ∀ m ∈ x.engine.index src, m ∈ K ∧ Readable x.engine.files m := fun m hm =>
        ⟨h.keeps.index_mem src m hm, h.keeps.readable m (h.keeps.index_mem src m hm)⟩
      obtain ⟨updates, cache', hrun, hgrows, -⟩ := getNeighborsTypedInternal_spec edgeType h.keeps.injOn
        (fun id _ => h.keeps.memgraph id) hl0 hindex h.keeps.agrees snapshot
      rw [hrun, stateOf_ok] at hcache
      subst hcache
      have hsound := h.setCall_quiet c .idle rfl rfl
      refine ⟨K, ?_, .of_same rfl rfl rfl rfl rfl,
        hr.turn (fun began hb => by cases hcall.symm.trans hb) rfl rfl rfl rfl fun m hm => hm⟩
      exact
        { hsound with
          keeps := h.keeps.withCache hgrows
          job := fun p j hj => (h.job p j hj).mono (.of_same rfl rfl rfl rfl rfl)
            fun id hid => ((h.job p j hj).reserved id hid).2
          ledger := { hsound.ledger with } }

/-! ## The first state -/

/-- A store that was just opened is sound, and nobody has a role. -/
theorem sound_start (h : e.Fresh) : (start e).Sound {m | m ∈ e.current.files} where
  keeps := h.keeps
  job := fun p j hj => by cases hj
  reserved_inj := fun p j id hj => by cases hj
  version := fun c v hv => by cases hv
  ledger := by
    have hmem : ∀ r, r ∈ (start e).inserted ↔ r ∈ fileRecords e.files e.current.files := fun r =>
      mem_flatMap_segmentRecords
    exact
      { coherent := fun r hr r' hr' => h.coherent r ((hmem r).mp hr) r' ((hmem r').mp hr')
        ts_le := fun r hr => h.ts_le r ((hmem r).mp hr)
        edge_le := fun c edge hc => by cases hc
        edge_new := fun c edge hc => by cases hc
        edge_inj := fun c edge hc => by cases hc
        stored := fun id r hr => absurd hr (h.empty id r)
        known := fun m hm r hr => (hmem r).mpr ⟨m, hm, hr⟩
        recovered := fun r hr => hr
        complete := fun r hr => Or.inl hr }

theorem roles_start (e : Engine) : (start e).Roles where
  task := fun m j hj => by cases hj
  call := fun c j hj => by cases hj
  spawning := fun c m hm => by cases hm
  spawning_inj := fun c m hm => by cases hm
  spawned := fun m hm => hm.elim (fun hjob => absurd rfl hjob) fun hended => absurd rfl hended

/-- **Run lemma.** What every step preserves, if everybody is sound and in his role before it, holds
in every state reached. -/
theorem invariant_of_reaches {P : Sys → Action → Prop} {I : Sys → Set CsrSegmentMeta → Prop}
    (hopened : Opened e) (hrun : Reaches step P (start e) x)
    (hinit : e.Fresh → I (start e) {m | m ∈ e.current.files})
    (hstep : ∀ x K a y K', x.Sound K → x.Roles → P x a → Step x a y → y.Sound K' → y.Roles →
      x.engine.Extends y.engine K K' → I x K → I y K') :
    ∃ K, x.Sound K ∧ x.Roles ∧ I x K := by
  have hfresh := hopened.fresh
  refine hrun.invariant (I := fun x => ∃ K, x.Sound K ∧ x.Roles ∧ I x K)
    ⟨_, sound_start hfresh, roles_start e, hinit hfresh⟩ ?_
  rintro x a y ⟨K, hsound, hroles, hI⟩ hP hs
  have hcases := step_cases hsound.keeps.fault_eq hs
  obtain ⟨K', hsound', hext, hroles'⟩ := sound_step hsound hroles hcases
  exact ⟨K', hsound', hroles', hstep x K a y K' hsound hroles hP hcases hsound' hroles' hext hI⟩

/-- **Everybody is sound and in his role** in every state reached, whatever the schedule and the
faults. -/
theorem sound_of_reaches {P : Sys → Action → Prop} (hopened : Opened e)
    (hrun : Reaches step P (start e) x) : ∃ K, x.Sound K ∧ x.Roles := by
  obtain ⟨K, hsound, hroles, -⟩ := invariant_of_reaches (I := fun _ _ => True) hopened hrun
    (fun _ => trivial) fun _ _ _ _ _ _ _ _ _ _ _ _ _ => trivial
  exact ⟨K, hsound, hroles⟩

/-! ## Lookups -/

/-- What known files hold was inserted. -/
theorem Sound.inserted_of_file (h : x.Sound K) {ms : List CsrSegmentMeta} (hms : ∀ m ∈ ms, m ∈ K)
    {r : EdgeRecord} (hr : r ∈ fileRecords x.engine.files ms) : r ∈ x.inserted := by
  obtain ⟨m, hm, hr⟩ := hr
  exact h.ledger.known m (hms m hm) r hr

/-- **A lookup in a pinned version** merges what memgraphs, `L0` files and indexed files hold for its
source, all of which was inserted. -/
theorem Sound.lookup_spec (h : x.Sound K) {v : Version} (hplaced : v.Placed K) (src : VertexId)
    (edgeType : Option EdgeType) (s : SnapshotId) :
    ∃ updates cache, getNeighborsTypedInternal x.engine.files x.engine.heap v x.engine.index src
        edgeType s x.engine.metadataCache = .ok (mergeVisible updates s) cache ∧
      (∀ r, r ∈ updates ↔ (r.src = src ∧ TypeMatches edgeType r) ∧
        (r ∈ memRecords x.engine.heap v ∨ r ∈ fileRecords x.engine.files (v.level 0) ∨
          r ∈ fileRecords x.engine.files (x.engine.index src))) ∧
      ∀ r ∈ updates, r ∈ x.inserted := by
  have hread : ∀ m ∈ K, m ∈ K ∧ Readable x.engine.files m := fun m hm =>
    ⟨hm, h.keeps.readable m hm⟩
  obtain ⟨updates, cache, hrun, -, hmem⟩ := getNeighborsTypedInternal_spec edgeType h.keeps.injOn
    (fun id _ => h.keeps.memgraph id) (fun m hm => hread m (hplaced 0 m hm).1)
    (fun m hm => hread m (h.keeps.index_mem src m hm)) h.keeps.agrees s
  refine ⟨updates, cache, hrun, hmem, fun r hr => ?_⟩
  rcases ((hmem r).mp hr).2 with ⟨id, -, hr⟩ | hr | hr
  · exact h.ledger.stored id r hr
  · exact h.inserted_of_file (fun m hm => (hplaced 0 m hm).1) hr
  · exact h.inserted_of_file (h.keeps.index_mem src) hr

/-! ## A store to start with -/

/-- A new store, opened again before anything was written. -/
def newEngine : Option Engine :=
  (Session.create {}).bind fun x =>
    match Engine.openDir {} x.engine.files x.engine.manifest with
    | .ok _ e => some e
    | .error _ _ => none

theorem opened_newEngine (h : newEngine = some e) : Opened e := by
  obtain ⟨x, hx, hopen⟩ := Option.bind_eq_some_iff.mp h
  cases hresult : Engine.openDir {} x.engine.files x.engine.manifest with
  | ok _ e' =>
      rw [hresult] at hopen
      cases hopen
      exact ⟨{}, x, x, {}, hx, .refl, hresult⟩
  | error err e' =>
      rw [hresult] at hopen
      cases hopen

end Sys

end LsmGraph
