import LsmGraph.Concurrent.Books

/-! # The index of the upper levels

The index is a second copy of part of the version, installed in a step of its own. It is that of the
current version when nobody works (`index_of_reaches`), provided that a job installs the index of an
older version only while another job has still to install the current one. A lookup returns what a
scan of its version returns if index and version are in step for the source when the index is read;
between the publication of a compaction and the installation they are not (`edge_missed`). -/

namespace LsmGraph

open KeyedSort ErrorState CsrReader Transition

variable {e e' : Engine} {K K' : Set CsrSegmentMeta} {v v' : Version} {kind : JobKind}
  {stage stage' : Stage} {m : CsrSegmentMeta} {src : VertexId} {s : SnapshotId}

/-! ## Indices and versions -/

/-- The versions have the same upper files. -/
def Version.SameUpper (v v' : Version) : Prop := ∀ m, m ∈ v.upperFiles ↔ m ∈ v'.upperFiles

/-- The index lists, for every source, the upper files of the version that contain it, each once. -/
def Indexes (files : StoreFiles) (index : MultiLevelIndex) (v : Version) : Prop :=
  ∀ src, (index src).Nodup ∧
    ∀ m, m ∈ index src ↔ m ∈ v.upperFiles ∧ ∃ r ∈ segmentRecords files m, r.src = src

/-- The upper files of a version whose levels repeat nothing. -/
theorem Version.NoRepeat.upperFiles (h : v.NoRepeat) (hplaced : v.Placed K) : v.upperFiles.Nodup := by
  have hlevels : ∀ i, ∀ level, v.levels[i]? = some level → v.level i = level := by
    intro i level hi
    rw [Version.level, List.getD_eq_getElem?_getD, hi, Option.getD_some]
  refine List.nodup_flatten.mpr ⟨fun level hlevel => ?_, ?_⟩
  · obtain ⟨i, hi⟩ := List.mem_iff_getElem?.mp (List.mem_of_mem_drop hlevel)
    exact hlevels i level hi ▸ h i
  · refine List.pairwise_iff_getElem.mpr fun i j hi hj hij m hm hm' => ?_
    have hat : ∀ k (hk : k < (v.levels.drop 1).length), (v.levels.drop 1)[k] = v.level (1 + k) := by
      intro k hk
      refine (hlevels (1 + k) _ ?_).symm
      rw [← List.getElem?_drop, List.getElem?_eq_getElem hk]
    rw [hat] at hm hm'
    have hlevel := (hplaced _ m hm).2.symm.trans (hplaced _ m hm').2
    omega

/-- A rebuild from a version makes the index of every version with the same upper files. -/
theorem indexes_indexOf (files : StoreFiles) (h : v.NoRepeat) (hplaced : v.Placed K)
    (hsame : v.SameUpper v') : Indexes files (indexOf files v) v' := by
  refine fun src => ⟨(h.upperFiles hplaced).filter _, fun m => ?_⟩
  rw [mem_indexOf, hsame m]

/-- The index of known files stays right while files are added. -/
theorem Indexes.mono {index : MultiLevelIndex} (h : Indexes e.files index v) (hplaced : v.Placed K)
    (hext : e.Extends e' K K') (hsame : v.SameUpper v') : Indexes e'.files index v' := by
  refine fun src => ⟨(h src).1, fun m => ?_⟩
  rw [(h src).2 m, ← hsame m]
  refine and_congr_right fun hm => ?_
  rw [hext.segmentRecords_eq (hplaced.mem (Version.mem_files_iff.mpr (Or.inr hm)))]

/-- The job has published and is on its way to install an index. -/
def Stage.Rebuilding : Stage → Prop
  | .rebuild => True
  | .install _ => True
  | _ => False

namespace Sys

variable {x y : Sys} {c : CallId} {p : Party}

/-! ## Whoever works last installs the current index -/

/-- The job will install the index of the version that is current now, or of a later one. -/
def WillInstall (x : Sys) (j : Job) : Prop :=
  j.stage = .rebuild ∨ ∃ v, j.stage = .install v ∧ v.SameUpper x.engine.current

/-- **The index is that of the current version**, or some job has still to install it. -/
def InstalledOrPending (x : Sys) : Prop :=
  Indexes x.engine.files x.engine.index x.engine.current ∨
    ∃ p j, x.jobs p = some j ∧ x.WillInstall j

/-- The condition on the steps of a run. -/
def InstallsCurrent (x : Sys) (a : Action) : Prop :=
  ∀ p fault, a = .job p fault → ∀ j v, x.jobs p = some j → j.stage = .install v →
    v.SameUpper x.engine.current ∨ ∃ q j', q ≠ p ∧ x.jobs q = some j' ∧ x.WillInstall j'

/-- A step that neither publishes nor installs. -/
theorem InstalledOrPending.quiet (h : x.InstalledOrPending) (hsound : x.Sound K)
    (hext : x.engine.Extends y.engine K K') (hindex : y.engine.index = x.engine.index)
    (hsame : x.engine.current.SameUpper y.engine.current)
    (hjobs : ∀ p j, x.jobs p = some j → x.WillInstall j → ∃ q j', y.jobs q = some j' ∧ y.WillInstall j') :
    y.InstalledOrPending := by
  rcases h with hindexes | ⟨p, j, hj, hwill⟩
  · rw [InstalledOrPending, hindex]
    exact Or.inl (hindexes.mono hsound.keeps.placed hext hsame)
  · exact Or.inr (hjobs p j hj hwill)

theorem WillInstall.congr {j : Job} (h : x.WillInstall j)
    (hsame : x.engine.current.SameUpper y.engine.current) : y.WillInstall j := by
  rcases h with hstage | ⟨v, hstage, hv⟩
  · exact Or.inl hstage
  · exact Or.inr ⟨v, hstage, fun m => (hv m).trans (hsame m)⟩

/-- A job that has nothing to install may be replaced. -/
theorem InstalledOrPending.replace (h : x.InstalledOrPending) (hsound : x.Sound K)
    (hext : x.engine.Extends y.engine K K') {j' : Option Job}
    (hnone : ∀ j, x.jobs p = some j → ¬ x.WillInstall j) (hjobs : y.jobs = (x.setJob p j').jobs)
    (hindex : y.engine.index = x.engine.index) (hcurrent : y.engine.current = x.engine.current) :
    y.InstalledOrPending := by
  have hsame : x.engine.current.SameUpper y.engine.current := fun m => by rw [hcurrent]
  refine h.quiet hsound hext hindex hsame fun q j hj hwill => ⟨q, j, ?_, hwill.congr hsame⟩
  have hq : q ≠ p := by
    rintro rfl
    exact hnone j hj hwill
  rw [hjobs]
  exact (setJob_of_ne hq).trans hj

/-- **The step of a job**: it publishes, goes on to install what it has published, or installs. -/
theorem InstalledOrPending.jobStep {fault : Option Bool} {kind : JobKind} {stage : Stage}
    {progress : Progress} {e : Engine} (h : x.InstalledOrPending) (hsound : x.Sound K)
    (hbooks : x.Books)
    (hP : ∀ v, stage = .install v → v.SameUpper x.engine.current ∨
      ∃ q j', q ≠ p ∧ x.jobs q = some j' ∧ x.WillInstall j')
    (hjob : x.jobs p = some { kind := kind, stage := stage })
    (heffect : kind.Effect fault x.engine stage progress e)
    (hext : x.engine.Extends ({ x with engine := e }.proceed p kind progress).engine K K') :
    ({ x with engine := e }.proceed p kind progress).InstalledOrPending := by
  -- a job at another stage than the last two has nothing to install
  have hnone : ¬ stage.Rebuilding → ∀ j, x.jobs p = some j → ¬ x.WillInstall j := by
    intro hstage j hj
    rw [hjob, Option.some.injEq] at hj
    subst hj
    rintro (hrebuild | ⟨v, hinstall, -⟩)
    · have hrebuild : stage = .rebuild := hrebuild
      subst hrebuild
      exact hstage trivial
    · have hinstall : stage = .install v := hinstall
      subst hinstall
      exact hstage trivial
  have hother : ¬ stage.Rebuilding → e.index = x.engine.index → e.current = x.engine.current →
      ({ x with engine := e }.proceed p kind progress).InstalledOrPending := by
    intro hstage hindex hcurrent
    obtain ⟨j', hjobs⟩ := @proceed_jobs { x with engine := e } p kind progress
    refine h.replace hsound hext (hnone hstage) hjobs ?_ ?_
    · rw [proceed_engine]
      exact hindex
    · rw [proceed_engine]
      exact hcurrent
  have hjobSound := hsound.job p _ hjob
  have hread : ∀ v, stage.version = some v → ∀ m ∈ v.upperFiles, m ∈ K ∧
      Readable x.engine.files m := by
    intro v hv m hm
    have hmem := (hjobSound.version v hv).mem (Version.mem_files_iff.mpr (Or.inr hm))
    exact ⟨hmem, hsound.keeps.readable m hmem⟩
  cases heffect with
  | publish => exact Or.inr ⟨p, _, setJob_self, Or.inl rfl⟩
  | rebuild => exact Or.inr ⟨p, _, setJob_self, Or.inr ⟨_, rfl, fun _ => Iff.rfl⟩⟩
  | @install v entries cache hbuild =>
      obtain ⟨cache', hrun, -⟩ := buildIndex_spec hsound.keeps.injOn (hread v rfl)
        hsound.keeps.agrees
      rw [hrun] at hbuild
      cases hbuild
      rcases hP v rfl with hsame | ⟨q, j', hq, hj', hwill⟩
      · refine Or.inl ?_
        rw [proceed, finish_engine]
        exact indexes_indexOf _ (hbooks.pinned p _ v hjob rfl) (hjobSound.version v rfl) hsame
      · refine Or.inr ⟨q, j', ?_, ?_⟩
        · rw [proceed, finish_jobs]
          exact (setJob_of_ne hq).trans hj'
        · rw [WillInstall, proceed, finish_engine]
          exact hwill
  | @installFails v err cache hbuild =>
      obtain ⟨cache', hrun, -⟩ := buildIndex_spec hsound.keeps.injOn (hread v rfl)
        hsound.keeps.agrees
      rw [hrun] at hbuild
      cases hbuild
  | nothing hwrite => exact hother id rfl rfl
  | unreadable hwrite => exact hother id rfl rfl
  | @writeFails _ _ _ _ durable hsome =>
      cases durable with
      | true => exact hother id rfl rfl
      | false => exact hother id rfl rfl
  | @commitFails _ _ _ durable hsome =>
      cases durable with
      | true => exact hother id rfl rfl
      | false => exact hother id rfl rfl
  | @deleteFails _ _ _ durable hm hsome =>
      cases durable with
      | true => exact hother id rfl rfl
      | false => exact hother id rfl rfl
  | _ => exact hother id rfl rfl

/-- **Step lemma.** -/
theorem InstalledOrPending.step {a : Action} (h : x.InstalledOrPending) (hsound : x.Sound K)
    (hroles : x.Roles) (hbooks : x.Books) (hP : x.InstallsCurrent a) (hs : Step x a y)
    (hext : x.engine.Extends y.engine K K') : y.InstalledOrPending := by
  have hquiet : y.jobs = x.jobs → y.engine.index = x.engine.index →
      x.engine.current.SameUpper y.engine.current → y.InstalledOrPending := by
    intro hjobs hindex hsame
    exact h.quiet hsound hext hindex hsame fun p j hj hwill => ⟨p, j, hjobs ▸ hj, hwill.congr hsame⟩
  have hbegin : ∀ {p kind}, x.jobs p = none →
      y.jobs = (x.setJob p (some { kind := kind, stage := .load })).jobs →
      y.engine.index = x.engine.index → y.engine.current = x.engine.current →
        y.InstalledOrPending := by
    intro p kind hnone hjobs
    refine h.replace hsound hext (fun j hj => ?_) hjobs
    cases hnone.symm.trans hj
  cases hs with
  | @spawn c memgraph call hcall hpushing hwrite hbegan =>
      exact hbegin (hroles.spawning c memgraph hcall).2.1 rfl rfl rfl
  | @select c request began kind hcall hkind =>
      refine hbegin (hroles.jobs_call fun began' hcompacting => ?_) rfl rfl rfl
      cases hcall.symm.trans hcompacting
  | job hjob heffect =>
      exact h.jobStep hsound hbooks (fun v => hP _ _ rfl _ v hjob) hjob heffect hext
  | writeFull hcall hlock => exact hquiet rfl rfl fun _ => Iff.rfl
  | flushActive hcall hfull => exact hquiet rfl rfl fun _ => Iff.rfl
  | _ => exact hquiet rfl rfl fun _ => Iff.rfl

/-! ## Lookups -/

/-- What a lookup of the source in the version reads. -/
def lookupRecords (x : Sys) (v : Version) (src : VertexId) : Set EdgeRecord :=
  {r | r ∈ memRecords x.engine.heap v ∨ r ∈ fileRecords x.engine.files (v.level 0) ∨
    r ∈ fileRecords x.engine.files (x.engine.index src)}

/-- **Index and version are in step for the source**: what a lookup reads and what a scan of the
version reads supersede each other. -/
def InStep (x : Sys) (v : Version) (src : VertexId) : Prop :=
  Covers (x.lookupRecords v src)
      {r | r ∈ versionRecords x.engine.files x.engine.heap v ∧ r.src = src} ∧
    Covers (versionRecords x.engine.files x.engine.heap v) {r | r ∈ x.lookupRecords v src ∧ r.src = src}

/-- The lookup of a call that is about to read the index, and the part of a scan of its version that
it asks for. -/
def answers (x : Sys) (c : CallId) : Option (List EdgeRecord × List EdgeRecord) :=
  match x.calls c with
  | .looking v src edgeType s =>
      match getNeighborsTypedInternal x.engine.files x.engine.heap v x.engine.index src edgeType s
          x.engine.metadataCache, scanEdges x.engine.files x.engine.heap v s with
      | .ok edges _, .ok all => some (edges, retainType edgeType (all.filter fun r => r.src = src))
      | _, _ => none
  | _ => none

/-- **A lookup in step returns what the scan returns**, when its snapshot is not behind what they
read. -/
theorem Sound.answers_subset (h : x.Sound K) {edgeType : Option EdgeType}
    (hcall : x.calls c = .looking v src edgeType s)
    (hs : ∀ r, r ∈ x.lookupRecords v src ∨ r ∈ versionRecords x.engine.files x.engine.heap v →
      r.ts ≤ s)
    (hstep : x.InStep v src) :
    ∃ edges all, x.answers c = some (edges, all) ∧ ∀ r ∈ all, r ∈ edges := by
  have hplaced : v.Placed K := h.version c v (by rw [hcall]; rfl)
  obtain ⟨updates, cache, hrun, hmem, hinserted⟩ := h.lookup_spec hplaced src edgeType s
  obtain ⟨updates', hscan, hmem'⟩ := scanEdges_spec x.engine.heap
    (fun m hm => h.keeps.readable m (hplaced.mem hm)) s
  have hanswers : x.answers c = some (mergeVisible updates s,
      retainType edgeType ((mergeVisible updates' s).filter fun r => r.src = src)) := by
    simp only [answers, hcall, hrun, hscan]
  refine ⟨_, _, hanswers, fun r hr => ?_⟩
  have hversion : ∀ r ∈ versionRecords x.engine.files x.engine.heap v, r ∈ x.inserted := by
    rintro r (⟨id, -, hr⟩ | hr)
    · exact h.ledger.stored id r hr
    · exact h.inserted_of_file (fun m hm => hplaced.mem hm) hr
  have hupdates : ∀ r ∈ updates, r ∈ x.lookupRecords v src := fun r hr => ((hmem r).mp hr).2
  obtain ⟨hr, htype⟩ := mem_retainType.mp hr
  obtain ⟨hr, hsrc⟩ := List.mem_filter.mp hr
  have hsrc : r.src = src := of_decide_eq_true hsrc
  rw [mem_mergeVisible (h.ledger.coherent.mono fun r hr => hversion r ((hmem' r).mp hr))] at hr
  rw [mem_mergeVisible (h.ledger.coherent.mono hinserted)]
  obtain ⟨⟨⟨hr, -⟩, hnewest⟩, hinsert⟩ := hr
  have hrV := (hmem' r).mp hr
  -- no record of the edge that the lookup reads is newer
  have hnotNewer : ∀ z ∈ x.lookupRecords v src, z.key = r.key → z.ts ≤ r.ts := by
    intro z hz hkey
    have hzsrc : z.src = src := (EdgeRecord.key_eq_iff.mp hkey).1.trans hsrc
    obtain ⟨w, hw, hwkey, hwts⟩ := hstep.2 z ⟨hz, hzsrc⟩
    exact hwts.trans (hnewest w ⟨(hmem' w).mpr hw, hs w (Or.inr hw)⟩ (hwkey.trans hkey))
  obtain ⟨z, hz, hzkey, hzts⟩ := hstep.1 r ⟨hrV, hsrc⟩
  obtain ⟨hsrcEq, htypeEq, -⟩ := EdgeRecord.key_eq_iff.mp hzkey
  have hzmem : z ∈ updates :=
    (hmem z).mpr ⟨⟨hsrcEq.trans hsrc, fun t ht => htypeEq.trans (htype t ht)⟩, hz⟩
  have heq : z = r := h.ledger.coherent z (hinserted z hzmem) r (hversion r hrV) hzkey
    (le_antisymm (hnotNewer z hz hzkey) hzts)
  subst heq
  refine ⟨⟨⟨hzmem, hs z (Or.inl hz)⟩, ?_⟩, hinsert⟩
  rintro z' ⟨hz', -⟩ hkey
  exact hnotNewer z' (hupdates z' hz') hkey

/-! ## Every run -/

/-- The index of a store that was just opened. -/
theorem installed_start (h : e.Fresh) : (start e).InstalledOrPending := by
  refine Or.inl ?_
  show Indexes e.files e.index e.current
  rw [h.index_eq]
  exact indexes_indexOf _ h.nodup h.keeps.placed fun _ => Iff.rfl

/-- Every index is installed before the upper files change again. -/
def installsInTurn (x : Sys) : Action → Bool
  | .job p _ =>
      match x.jobs p with
      | some { kind := _, stage := .install v } => v.upperFiles = x.engine.current.upperFiles
      | _ => true
  | _ => true

theorem installsCurrent_of_installsInTurn {a : Action} (h : x.installsInTurn a = true) :
    x.InstallsCurrent a := by
  rintro p fault rfl ⟨kind, stage⟩ v hj hstage
  rw [installsInTurn, hj] at h
  cases hstage
  have hupper : v.upperFiles = x.engine.current.upperFiles := of_decide_eq_true h
  exact Or.inl fun m => by rw [hupper]

/-- One edge is inserted and flushed, and a full compaction goes as far as to its publication. -/
def flushAndCompact : List Action :=
  [.insertEdge 0 1 2 1, .write 0, .flushActive 0, .spawn 0] ++
    List.replicate 10 (.job (.task 0) none) ++
    [.compact 1 (.full true), .pop 1, .select 1] ++ List.replicate 9 (.job (.call 1) none)

end Sys

end LsmGraph
