import LsmGraph.Concurrent.Books

/-! # No acknowledged write leaves the current version

A job publishes what it makes of the version it pinned. Nothing is lost (`listed_of_reaches`) if no
memgraph was rotated in between, if a full compaction finds in the version it pinned no files of the
lower levels that it has not merged, and, for the readers of an old snapshot, if no compaction merges
a record they see with a newer one they do not see. A flush that publishes after a rotation loses the
active memgraph (`active_lost`). -/

namespace LsmGraph

open KeyedSort ErrorState CsrReader Transition

variable {s : SnapshotId} {e e' : Engine} {K K' : Set CsrSegmentMeta} {v : Version}
  {kind : JobKind} {stage stage' : Stage}

/-! ## What a job writes, as of a snapshot -/

/-- Every record of `R` that `s` sees is in `C` or superseded there by one that `s` sees. -/
def CoversAt (s : SnapshotId) (C R : Set EdgeRecord) : Prop := Covers (asOf C s) (asOf R s)

theorem CoversAt.trans {A B C : Set EdgeRecord} (hAB : CoversAt s A B) (hBC : CoversAt s B C) :
    CoversAt s A C := Versioned.Covers.trans hAB hBC

theorem CoversAt.mono {C C' R : Set EdgeRecord} (h : CoversAt s C R) (hC : C ⊆ C') : CoversAt s C' R :=
  Versioned.Covers.mono h (fun _ hr => ⟨hC hr.1, hr.2⟩) subset_rfl

theorem CoversAt.refl (R : Set EdgeRecord) : CoversAt s R R := Versioned.Covers.refl _

/-- No record of `R` that `s` sees is superseded in `R` by one that `s` does not see. -/
def Spares (s : SnapshotId) (R : Set EdgeRecord) : Prop :=
  ∀ r ∈ R, r.ts ≤ s → ∀ r' ∈ R, r'.key = r.key → r'.ts ≤ s

/-- Between its load and its publication a job has the same data, in files or still to be written. -/
theorem JobKind.Effect.data_eq {fault : Option Bool} (h : kind.Effect fault e stage (.on stage') e')
    (hjob : Job.Sound e K kind stage) (hext : e.Extends e' K K') (hstage : stage.Unpublished)
    (hstage' : stage'.Unpublished) : stage'.data e'.files = stage.data e.files := by
  rw [← hjob.data_eq hext]
  cases h with
  | load h hne => exact absurd hstage id
  | created => rfl
  | alloc => rfl
  | @write fileId segmentEdges segments outputs hfault =>
      have hne : segmentEdges ≠ [] := fun hnil => hjob.nonempty (hnil ▸ List.mem_cons_self)
      have hstored : Stored (Engine.putFile e.files kind.level fileId
          (CsrWriter.writeSegment kind.level fileId segmentEdges).1)
            (CsrWriter.writeSegment kind.level fileId segmentEdges).2 segmentEdges :=
        stored_writeSegment hne (if_pos ⟨rfl, rfl⟩)
      have hrecords : ∀ r, r ∈ segmentRecords (e.withFile kind.level fileId
          (CsrWriter.writeSegment kind.level fileId segmentEdges).1).files
            (CsrWriter.writeSegment kind.level fileId segmentEdges).2 ↔ r ∈ segmentEdges := by
        intro r
        rw [Engine.withFile, segmentRecords_of_stored hstored, mem_sortByKey]
      -- the segment moves from what is pending to what is written
      ext r
      simp only [Stage.data, Stage.written, Stage.pending, List.flatten_cons, List.mem_append,
        Set.mem_union, Set.mem_ofPred_eq, mem_fileRecords_concat, hrecords, or_assoc]
  | commit hfault => rfl
  | delete hm hfault => rfl
  | deleted hm => rfl
  | pin => rfl
  | publish => exact absurd hstage' id
  | rebuild => exact absurd hstage id

/-! ## Versions that give access to everything -/

/-- The version lists every memgraph or has files for it, and has files for what was recovered. -/
structure Version.Complete (s : SnapshotId) (e : Engine) (recovered : List EdgeRecord) (v : Version) :
    Prop where
  memgraph : ∀ m < e.nextMemGraphId, m ∈ v.memgraphs ∨
    CoversAt s (fileRecords e.files v.files) {r | (e.heap m).Stores r}
  recovered : CoversAt s (fileRecords e.files v.files) {r | r ∈ recovered}

/-- What a job knows: unless there was a rotation since, the version it pinned is complete, and what
it has written covers its source. -/
structure Job.Listed (s : SnapshotId) (e : Engine) (recovered : List EdgeRecord) (j : Job) : Prop where
  lt : ∀ old outputs, j.stage = .publish old outputs → ∀ m ∈ old.memgraphs, m < e.nextMemGraphId
  complete : ∀ old outputs, j.stage = .publish old outputs → e.active ∈ old.memgraphs →
    old.Complete s e recovered
  data : j.stage.Unpublished → CoversAt s (j.stage.data e.files) (j.kind.source e)

/-- The condition under which a step of a job loses nothing. -/
structure Job.LosesNothing (s : SnapshotId) (e : Engine) (j : Job) : Prop where
  spares : j.stage = .load → (∃ m, j.kind = .flush m) ∨ Spares s (j.kind.source e)
  active_mem : ∀ old outputs, j.stage = .publish old outputs → e.active ∈ old.memgraphs
  read : ∀ old outputs, j.stage = .publish old outputs → ∀ l0Files l1Files,
    j.kind = .full l0Files l1Files → ∀ m ∈ old.level 0 ++ old.level 1, m ∈ l0Files ++ l1Files

variable {recovered : List EdgeRecord}

/-- A complete version stays complete when a memgraph it lists gets a record. -/
theorem Version.Complete.mono (h : v.Complete s e recovered) (hv : v.Placed K)
    (hext : e.Extends e' K K') (hnext : e'.nextMemGraphId = e.nextMemGraphId)
    (hheap : ∀ m, m ∉ v.memgraphs → e'.heap m = e.heap m) : v.Complete s e' recovered := by
  have hfiles : fileRecords e'.files v.files = fileRecords e.files v.files :=
    hext.fileRecords_eq fun m hm => hv.mem hm
  refine ⟨fun m hm => ?_, by rw [hfiles]; exact h.recovered⟩
  by_cases hlisted : m ∈ v.memgraphs
  · exact Or.inl hlisted
  · rw [hfiles, hheap m hlisted]
    exact h.memgraph m (hnext ▸ hm)

/-- **What a job publishes is complete** if what it pinned is. -/
theorem Version.Complete.next {old : Version} {outputs : List CsrSegmentMeta}
    (h : old.Complete s e recovered) (hkeeps : e.Keeps K)
    (hjob : Job.Sound e K kind (.publish old outputs))
    (hdata : CoversAt s (Stage.data e.files (.publish old outputs)) (kind.source e))
    (hread : ∀ l0Files l1Files, kind = .full l0Files l1Files →
      ∀ m ∈ old.level 0 ++ old.level 1, m ∈ l0Files ++ l1Files) :
    (kind.next old outputs).Complete s e recovered := by
  have hmem : ∀ m, m ∈ (kind.next old outputs).files ↔ m ∈ old.files ∧ m ∉ kind.inputs ∨ m ∈ outputs :=
    fun m => hjob.mem_files_next hkeeps hread
  -- the outputs are in the new version, and cover the source
  have hcovers : CoversAt s (fileRecords e.files (kind.next old outputs).files) (kind.source e) := by
    refine hdata.mono ?_
    rintro r (⟨m, hm, hr⟩ | hr)
    · exact ⟨m, (hmem m).mpr (Or.inr hm), hr⟩
    · exact absurd hr List.not_mem_nil
  -- the files that are not in it any more have been merged
  have hinputs : fileRecords e.files kind.inputs ⊆ kind.source e := by
    cases kind with
    | flush memgraph =>
        rintro r ⟨m, hm, -⟩
        exact absurd hm List.not_mem_nil
    | full l0Files l1Files => exact subset_rfl
    | target selectedL0 selectedL1 => exact subset_rfl
  have hfiles : CoversAt s (fileRecords e.files (kind.next old outputs).files)
      (fileRecords e.files old.files) := by
    rintro r ⟨⟨m, hm, hr⟩, hrs⟩
    by_cases hinput : m ∈ kind.inputs
    · exact hcovers r ⟨hinputs ⟨m, hinput, hr⟩, hrs⟩
    · exact ⟨r, ⟨⟨m, (hmem m).mpr (Or.inl ⟨hm, hinput⟩), hr⟩, hrs⟩, rfl, le_rfl⟩
  refine ⟨fun m hm => ?_, hfiles.trans h.recovered⟩
  rcases h.memgraph m hm with hlisted | hstored
  · cases kind with
    | flush memgraph =>
        by_cases hflushed : m = memgraph
        · subst hflushed
          exact Or.inr hcovers
        · exact Or.inl (List.mem_filter.mpr ⟨hlisted, decide_eq_true hflushed⟩)
    | full l0Files l1Files => exact Or.inl hlisted
    | target selectedL0 selectedL1 => exact Or.inl hlisted
  · exact Or.inr (hfiles.trans hstored)

/-- A job at another stage than its publication, and with nothing to publish, knows enough. -/
theorem Job.Listed.trivial {j : Job} (hpublish : ∀ old outputs, j.stage ≠ .publish old outputs)
    (hstage : ¬ j.stage.Unpublished) : j.Listed s e recovered :=
  ⟨fun old outputs h => absurd h (hpublish old outputs),
    fun old outputs h => absurd h (hpublish old outputs), fun h => absurd h hstage⟩

/-- What a job knows the others do not change, as long as they do not rotate. -/
theorem Job.Listed.mono {j : Job} (h : j.Listed s e recovered) (hjob : Job.Sound e K j.kind j.stage)
    (hext : e.Extends e' K K') (hnext : e'.nextMemGraphId = e.nextMemGraphId)
    (hactive : e'.active = e.active) (hheap : ∀ m, m ≠ e.active → e'.heap m = e.heap m) :
    j.Listed s e' recovered where
  lt old outputs hstage m hm := hnext ▸ h.lt old outputs hstage m hm
  complete old outputs hstage hmem := by
    rw [hactive] at hmem
    have hversion : j.stage.version = some old := by rw [hstage]; rfl
    refine (h.complete old outputs hstage hmem).mono (hjob.version old hversion) hext hnext
      fun m hm => hheap m ?_
    rintro rfl
    exact hm hmem
  data hstage := by
    rw [hjob.data_eq hext, hjob.placed.source_eq hext]
    exact h.data hstage

/-- A rotation leaves every version that was pinned before behind. -/
theorem Job.Listed.rotate {j : Job} (h : j.Listed s e recovered) (hjob : Job.Sound e K j.kind j.stage)
    (hext : e.Extends e' K K') (hnext : e'.nextMemGraphId = e.nextMemGraphId + 1)
    (hactive : e'.active = e.nextMemGraphId) : j.Listed s e' recovered where
  lt old outputs hstage m hm := by
    rw [hnext]
    exact (h.lt old outputs hstage m hm).trans (Nat.lt_succ_self _)
  complete old outputs hstage hmem := by
    rw [hactive] at hmem
    exact absurd (h.lt old outputs hstage _ hmem) (lt_irrefl _)
  data hstage := by
    rw [hjob.data_eq hext, hjob.placed.source_eq hext]
    exact h.data hstage

/-! ## One step -/

/-- A job that has pinned a version has just pinned the current one. -/
theorem JobKind.Effect.pinned {fault : Option Bool} {old : Version} {outputs : List CsrSegmentMeta}
    (h : kind.Effect fault e stage (.on (.publish old outputs)) e') : old = e.current ∧ e' = e := by
  cases h with
  | pin => exact ⟨rfl, rfl⟩

/-- **The step of a job** leaves it with what it has to know. -/
theorem JobKind.Effect.listed {fault : Option Bool} (h : kind.Effect fault e stage (.on stage') e')
    (hkeeps : e.Keeps K) (hsound : Job.Sound e K kind stage) (hext : e.Extends e' K K')
    (hcoh : Coherent (kind.source e)) (hts : ∀ r ∈ kind.source e, r.ts ≤ e.timestamp)
    (hjob : Job.Listed s e recovered { kind := kind, stage := stage })
    (hP : Job.LosesNothing s e { kind := kind, stage := stage })
    (hlt : ∀ m ∈ e.current.memgraphs, m < e.nextMemGraphId)
    (hcomplete : e.current.Complete s e recovered) :
    Job.Listed s e' recovered { kind := kind, stage := stage' } where
  lt old outputs hstage' m hm := by
    cases hstage'
    obtain ⟨rfl, rfl⟩ := h.pinned
    exact hlt m hm
  complete old outputs hstage' hmem := by
    cases hstage'
    obtain ⟨rfl, rfl⟩ := h.pinned
    exact hcomplete
  data hstage' := by
    show CoversAt s (stage'.data e'.files) (kind.source e')
    rw [hsound.placed.source_eq hext]
    by_cases hstage : stage.Unpublished
    · rw [h.data_eq hsound hext hstage hstage']
      exact hjob.data hstage
    · cases h with
      | @load segments hwrite hne =>
          have hdata : Stage.data e.files (.create segments []) = {r | r ∈ segments.flatten} := by
            ext r
            refine or_iff_right ?_
            rintro ⟨m, hm, -⟩
            exact absurd hm List.not_mem_nil
          obtain ⟨-, hsub, hcovers⟩ := kind.toWrite_spec hkeeps hsound.placed hcoh hts hwrite
          rw [hdata]
          rcases hP.spares rfl with ⟨m, rfl⟩ | hspares
          · rw [JobKind.toWrite_flush hwrite]
            exact CoversAt.refl _
          · exact Versioned.Covers.asOf hcovers hsub hspares
      | publish => exact absurd hstage' id
      | rebuild => exact absurd hstage' id
      | _ => exact absurd trivial hstage

namespace Sys

variable {x y : Sys} {c : CallId} {p : Party}

/-- **Nothing has left the current version.** -/
structure Listed (s : SnapshotId) (x : Sys) : Prop where
  active_mem : x.engine.active ∈ x.engine.current.memgraphs
  lt : ∀ m ∈ x.engine.current.memgraphs, m < x.engine.nextMemGraphId
  complete : x.engine.current.Complete s x.engine x.recovered
  job : ∀ p j, x.jobs p = some j → j.Listed s x.engine x.recovered

/-- The condition on the steps of a run. -/
def LosesNothing (s : SnapshotId) (x : Sys) (a : Action) : Prop :=
  ∀ p fault, a = .job p fault → ∀ j, x.jobs p = some j → j.LosesNothing s x.engine

/-- A step that publishes nothing. -/
theorem Listed.unpublished (h : x.Listed s) (hsound : x.Sound K)
    (hext : x.engine.Extends y.engine K K') (hcurrent : y.engine.current = x.engine.current)
    (hnext : y.engine.nextMemGraphId = x.engine.nextMemGraphId)
    (hactive : y.engine.active = x.engine.active)
    (hheap : ∀ m, m ≠ x.engine.active → y.engine.heap m = x.engine.heap m)
    (hrecovered : y.recovered = x.recovered)
    (hjobs : ∀ p j, y.jobs p = some j → x.jobs p = some j ∨ j.Listed s y.engine x.recovered) :
    y.Listed s where
  active_mem := by
    rw [hactive, hcurrent]
    exact h.active_mem
  lt m hm := by
    rw [hcurrent] at hm
    exact hnext ▸ h.lt m hm
  complete := by
    rw [hcurrent, hrecovered]
    refine h.complete.mono hsound.keeps.placed hext hnext fun m hm => hheap m ?_
    rintro rfl
    exact hm h.active_mem
  job p j hj := by
    rw [hrecovered]
    rcases hjobs p j hj with hj | hj
    · exact (h.job p j hj).mono (hsound.job p j hj) hext hnext hactive hheap
    · exact hj

/-- A rotation lists the new memgraph. -/
theorem Listed.rotate (h : x.Listed s) (hsound : x.Sound K) {e : Engine}
    (hext : x.engine.Extends e.withNewActive K K') (hcurrent : e.current = x.engine.current)
    (hnext : e.nextMemGraphId = x.engine.nextMemGraphId)
    (hheap : ∀ m, m ≠ x.engine.active → e.heap m = x.engine.heap m) (hjobs : y.jobs = x.jobs)
    (hengine : y.engine = e.withNewActive) (hrecovered : y.recovered = x.recovered) :
    y.Listed s := by
  have hnewHeap : ∀ m < x.engine.nextMemGraphId, e.withNewActive.heap m = e.heap m := by
    intro m hm
    rw [← hnext] at hm
    exact Function.update_of_ne hm.ne _ _
  have hfiles : fileRecords e.withNewActive.files x.engine.current.files =
      fileRecords x.engine.files x.engine.current.files :=
    hext.fileRecords_eq fun m hm => hsound.keeps.placed.mem hm
  have hlevels : e.withNewActive.current.files = x.engine.current.files := by
    rw [← hcurrent]
    rfl
  have hmem : ∀ m, m ∈ e.withNewActive.current.memgraphs ↔
      m = x.engine.nextMemGraphId ∨ m ∈ x.engine.current.memgraphs := by
    intro m
    rw [← hcurrent, ← hnext]
    exact List.mem_cons
  rw [← hengine] at hext hnewHeap hfiles hlevels hmem
  have hnext' : y.engine.nextMemGraphId = x.engine.nextMemGraphId + 1 := by
    rw [hengine, ← hnext]
    rfl
  have hactive : y.engine.active = x.engine.nextMemGraphId := by
    rw [hengine, ← hnext]
    rfl
  refine ⟨?_, fun m hm => ?_, ⟨fun m hm => ?_, ?_⟩, fun p j hj => ?_⟩
  · rw [hactive]
    exact (hmem _).mpr (Or.inl rfl)
  · rw [hnext']
    rcases (hmem m).mp hm with rfl | hm
    · exact Nat.lt_succ_self _
    · exact (h.lt m hm).trans (Nat.lt_succ_self _)
  · -- the old active memgraph stays listed; the others have kept what they hold
    rw [hmem, hlevels, hfiles]
    rw [hnext'] at hm
    rcases Nat.lt_succ_iff_lt_or_eq.mp hm with hm | rfl
    · rcases h.complete.memgraph m hm with hlisted | hstored
      · exact Or.inl (Or.inr hlisted)
      · by_cases hactive : m = x.engine.active
        · exact Or.inl (Or.inr (hactive ▸ h.active_mem))
        · rw [hnewHeap m hm, hheap m hactive]
          exact Or.inr hstored
    · exact Or.inl (Or.inl rfl)
  · rw [hlevels, hfiles, hrecovered]
    exact h.complete.recovered
  · rw [hjobs] at hj
    rw [hrecovered]
    exact (h.job p j hj).rotate (hsound.job p j hj) hext hnext' hactive

/-- **The step of a job** keeps the version complete, if it loses nothing. -/
theorem Listed.jobStep {fault : Option Bool} {kind : JobKind} {stage : Stage} {progress : Progress}
    {e : Engine} (h : x.Listed s) (hsound : x.Sound K)
    (hP : Job.LosesNothing s x.engine { kind := kind, stage := stage })
    (hjob : x.jobs p = some { kind := kind, stage := stage })
    (heffect : kind.Effect fault x.engine stage progress e)
    (hext : x.engine.Extends ({ x with engine := e }.proceed p kind progress).engine K K') :
    ({ x with engine := e }.proceed p kind progress).Listed s := by
  have hjobSound := hsound.job p _ hjob
  have hsource := hsound.source_sub hjobSound.placed
  have hcoh := hsound.ledger.coherent.mono hsource
  have hts : ∀ r ∈ kind.source x.engine, r.ts ≤ x.engine.timestamp := fun r hr =>
    hsound.ledger.ts_le r (hsource hr)
  obtain ⟨_, hadvances⟩ := heffect.advances hsound.keeps hjobSound hcoh hts
  have hmemory := hadvances.memory
  have hengine : ({ x with engine := e }.proceed p kind progress).engine = e :=
    proceed_engine p kind progress
  have hrecovered : ({ x with engine := e }.proceed p kind progress).recovered = x.recovered :=
    proceed_recovered p kind progress
  rw [hengine] at hext
  have hjobs : ∀ q j, ({ x with engine := e }.proceed p kind progress).jobs q = some j →
      x.jobs q = some j ∧ q ≠ p ∨ j.Listed s e x.recovered := by
    intro q j hj
    cases progress with
    | on stage' =>
        rcases setJob_cases hj with ⟨-, heq⟩ | ⟨hq, hold⟩
        · cases heq
          exact Or.inr (heffect.listed hsound.keeps hjobSound hext hcoh hts (h.job p _ hjob)
            hP h.lt h.complete)
        · exact Or.inl ⟨hold, hq⟩
    | off ok =>
        rw [proceed, finish_jobs] at hj
        exact Or.inl (setJob_ended hj).symm
  rcases effect_current heffect with hcurrent | ⟨old, outputs, hstage, hprogress, hpublished⟩
  · refine h.unpublished hsound (hengine.symm ▸ hext) (by rw [hengine]; exact hcurrent)
      (by rw [hengine]; exact hmemory.nextMemGraphId_eq)
      (by rw [hengine]; exact hmemory.active_eq)
      (fun m _ => by rw [hengine, hmemory.heap_eq]) hrecovered fun q j hj => ?_
    rw [hengine]
    exact (hjobs q j hj).imp_left And.left
  · subst hstage hprogress
    have hactive := hP.active_mem old outputs rfl
    have hcomplete := (h.job p _ hjob).complete old outputs rfl hactive
    have hdata := (h.job p _ hjob).data trivial
    have hnext := hcomplete.next hsound.keeps hjobSound hdata
      (hP.read old outputs rfl)
    have hmem : ∀ m, m ∈ (kind.next old outputs).memgraphs → m ∈ old.memgraphs := by
      intro m hm
      cases kind with
      | flush memgraph => exact List.mem_of_mem_filter hm
      | full l0Files l1Files => exact hm
      | target selectedL0 selectedL1 => exact hm
    have hkept : x.engine.active ∈ (kind.next old outputs).memgraphs := by
      cases kind with
      | flush memgraph =>
          refine List.mem_filter.mpr ⟨hactive, decide_eq_true ?_⟩
          rintro heq
          exact hjobSound.placed.2 heq.symm
      | full l0Files l1Files => exact hactive
      | target selectedL0 selectedL1 => exact hactive
    subst hpublished
    exact
      { active_mem := hkept
        lt := fun m hm => (h.job p _ hjob).lt old outputs rfl m (hmem m hm)
        complete := { memgraph := hnext.memgraph, recovered := hnext.recovered }
        job := fun q j hj => by
          rcases hjobs q j hj with ⟨hold, -⟩ | hlisted
          · exact (h.job q j hold).mono (hsound.job q j hold) hext rfl rfl fun _ _ => rfl
          · exact hlisted }

/-- **Step lemma.** -/
theorem Listed.step {a : Action} (h : x.Listed s) (hsound : x.Sound K)
    (hP : x.LosesNothing s a) (hs : Step x a y) (hext : x.engine.Extends y.engine K K') :
    y.Listed s := by
  have hold : ∀ jobs : Party → Option Job, jobs = x.jobs → ∀ p j, jobs p = some j →
      x.jobs p = some j ∨ j.Listed s y.engine x.recovered := by
    rintro jobs rfl p j hj
    exact Or.inl hj
  -- a job that begins has nothing yet
  have hbegin : ∀ q kind, ∀ p j, (x.setJob q (some { kind := kind, stage := .load })).jobs p = some j →
      x.jobs p = some j ∨ j.Listed s y.engine x.recovered := by
    rintro q kind p j hj
    rcases setJob_begun hj with hold | rfl
    · exact Or.inl hold
    · exact Or.inr (.trivial (fun _ _ heq => by cases heq) id)
  cases hs with
  | turn hturn =>
      exact h.unpublished hsound hext rfl rfl rfl (fun _ _ => rfl) rfl (hold _ rfl)
  | draw hcall hoverflow hts ha =>
      exact h.unpublished hsound hext rfl rfl rfl (fun _ _ => rfl) rfl (hold _ rfl)
  | write hcall hlock =>
      exact h.unpublished hsound hext rfl rfl rfl (fun _ hm => Function.update_of_ne hm _ _) rfl
        (hold _ rfl)
  | writeFull hcall hlock =>
      exact h.rotate hsound hext rfl rfl (fun _ hm => Function.update_of_ne hm _ _) rfl rfl rfl
  | flushActive hcall hfull => exact h.rotate hsound hext rfl rfl (fun _ _ => rfl) rfl rfl rfl
  | spawn hcall hpushing hwrite hbegan =>
      exact h.unpublished hsound hext rfl rfl rfl (fun _ _ => rfl) rfl (hbegin _ _)
  | pushWrite hcall =>
      exact h.unpublished hsound hext rfl rfl rfl (fun _ _ => rfl) rfl (hold _ rfl)
  | pushFlush hcall =>
      exact h.unpublished hsound hext rfl rfl rfl (fun _ _ => rfl) rfl (hold _ rfl)
  | pop hcall hlast =>
      exact h.unpublished hsound hext rfl rfl rfl (fun _ _ => rfl) rfl (hold _ rfl)
  | select hcall hkind =>
      exact h.unpublished hsound hext rfl rfl rfl (fun _ _ => rfl) rfl (hbegin _ _)
  | getNeighbors hcall hlock =>
      exact h.unpublished hsound hext rfl rfl rfl (fun _ _ => rfl) rfl (hold _ rfl)
  | read hcall hcache =>
      exact h.unpublished hsound hext rfl rfl rfl (fun _ _ => rfl) rfl (hold _ rfl)
  | job hjob heffect => exact h.jobStep hsound (hP _ _ rfl _ hjob) hjob heffect hext

/-! ## Every run -/

/-- A store that was just opened lists its memgraph. -/
theorem listed_start (s : SnapshotId) (h : e.Fresh) : (start e).Listed s where
  active_mem := by
    show e.active ∈ e.current.memgraphs
    rw [h.memgraphs_eq]
    exact List.mem_singleton_self _
  lt m hm := by
    rw [start, h.memgraphs_eq, List.mem_singleton] at hm
    rw [start, hm, h.nextMemGraphId_eq]
    exact Nat.lt_succ_self _
  complete := by
    refine ⟨fun m hm => Or.inr ?_, ?_⟩
    · rintro r ⟨hr, -⟩
      exact absurd hr (h.empty m r)
    · rintro r ⟨hr, hrs⟩
      exact ⟨r, ⟨mem_flatMap_segmentRecords.mp hr, hrs⟩, rfl, le_rfl⟩
  job p j hj := by cases hj

theorem listed_invariant (hopened : Opened e) (hrun : Reaches step (LosesNothing s) (start e) x) :
    ∃ K, x.Sound K ∧ x.Roles ∧ x.Listed s := by
  refine invariant_of_reaches (I := fun x _ => x.Listed s) hopened hrun (listed_start s) ?_
  intro x K a y K' hsound _ hP hs _ _ hext h
  exact h.step hsound hP hs hext

/-- The last snapshot there can be. -/
def lastSnapshot : SnapshotId := 18446744073709551615

theorem le_lastSnapshot (ts : Timestamp) : ts ≤ lastSnapshot :=
  UInt64.le_iff_toNat_le.mpr (Nat.le_of_lt_succ ts.toNat_lt)

/-- What a condition asks for at a snapshot it asks for at the last one too. -/
theorem LosesNothing.last {a : Action} (h : x.LosesNothing s a) :
    x.LosesNothing lastSnapshot a := by
  intro p fault ha j hj
  obtain ⟨-, hactive, hread⟩ := h p fault ha j hj
  exact ⟨fun _ => Or.inr fun _ _ _ r' _ _ => le_lastSnapshot r'.ts, hactive, hread⟩

/-- At the last snapshot everything is seen. -/
theorem CoversAt.covers {C R : Set EdgeRecord} (h : CoversAt lastSnapshot C R) :
    Covers C R := by
  intro r hr
  obtain ⟨r', ⟨hr', -⟩, hrel⟩ := h r ⟨hr, le_lastSnapshot r.ts⟩
  exact ⟨r', hr', hrel⟩

/-- A lookup of the current version returns what was inserted, if the index lists the files of the
version. -/
theorem Listed.lookup (h : x.Listed s) (hsound : x.Sound K) (src : VertexId)
    (edgeType : Option EdgeType)
    (hindex : ∀ m ∈ indexOf x.engine.files x.engine.current src, m ∈ x.engine.index src) :
    ∃ edges cache, getNeighborsTypedInternal x.engine.files x.engine.heap x.engine.current
        x.engine.index src edgeType s x.engine.metadataCache = .ok edges cache ∧
      ∀ r, r ∈ edges ↔ (r.src = src ∧ TypeMatches edgeType r) ∧
        Newest (asOf {r | r ∈ x.inserted} s) r ∧ r.marker = .insert := by
  obtain ⟨updates, cache, hrun, hmem, hsub⟩ :=
    hsound.lookup_spec hsound.keeps.placed src edgeType s
  refine ⟨mergeVisible updates s, cache, hrun, fun r => ?_⟩
  -- source and type are read off the key
  let P : EdgeKey → Prop := fun k => (ofLex k).1 = src ∧
    ∀ t, edgeType = some t → (ofLex (ofLex k).2).1 = t
  have hversion : ∀ r ∈ fileRecords x.engine.files x.engine.current.files, P r.key → r ∈ updates := by
    intro r hr hP
    refine (hmem r).mpr ⟨hP, Or.inr ?_⟩
    rcases Engine.mem_fileRecords_files.mp hr with hr | hr
    · exact Or.inl hr
    · have hsrc : r.src = src := hP.1
      obtain ⟨m, hm, hr⟩ := Engine.mem_fileRecords_indexOf.mpr hr
      exact Or.inr ⟨m, hindex m (hsrc ▸ hm), hr⟩
  have hcovers : Covers (asOf {r | r ∈ updates} s)
      {r | r ∈ asOf {r | r ∈ x.inserted} s ∧ P r.key} := by
    have hfiles : ∀ {R : Set EdgeRecord}, CoversAt s
        (fileRecords x.engine.files x.engine.current.files) R → ∀ r ∈ R, r.ts ≤ s → P r.key →
          ∃ r' ∈ asOf {r | r ∈ updates} s, r'.key = r.key ∧ r.ts ≤ r'.ts := by
      intro R hR r hr hrs hP
      obtain ⟨r', ⟨hr', hrs'⟩, hkey, hts⟩ := hR r ⟨hr, hrs⟩
      exact ⟨r', ⟨hversion r' hr' (hkey ▸ hP), hrs'⟩, hkey, hts⟩
    rintro r ⟨⟨hr, hrs⟩, hP⟩
    rcases hsound.ledger.complete r hr with hr | ⟨m, hm, hr⟩
    · exact hfiles h.complete.recovered r hr hrs hP
    · rcases h.complete.memgraph m hm with hlisted | hstored
      · exact ⟨r, ⟨(hmem r).mpr ⟨hP, Or.inl ⟨m, hlisted, hr⟩⟩, hrs⟩, rfl, le_rfl⟩
      · exact hfiles hstored r hr hrs hP
  have hcoh : Coherent {r | r ∈ asOf {r | r ∈ x.inserted} s ∧ P r.key} :=
    hsound.ledger.coherent.mono fun r hr => hr.1.1
  have hnewest := Versioned.newest_iff_of_covers hcoh
    (fun r hr => ⟨⟨hsub r hr.1, hr.2⟩, ((hmem r).mp hr.1).1⟩) hcovers r
  rw [mem_mergeVisible (hsound.ledger.coherent.mono hsub), ← and_assoc]
  exact and_congr_left fun _ => (hnewest.trans Versioned.newest_sep_iff).trans and_comm

/-- **No acknowledged write leaves the current version** in a run that meets the condition: the
active memgraph is listed, every other one is listed or has files in the version that hold its
records or newer ones, and a lookup as of `s` that pins the version returns the insertions that are
the last operation on their edge as of `s`. -/
theorem listed_of_reaches (hopened : Opened e)
    (hrun : Reaches step (LosesNothing s) (start e) x) :
    x.engine.active ∈ x.engine.current.memgraphs ∧
      (∀ m < x.engine.nextMemGraphId, m ∈ x.engine.current.memgraphs ∨
        Covers (fileRecords x.engine.files x.engine.current.files)
          {r | (x.engine.heap m).Stores r}) ∧
      ∀ src edgeType,
        (∀ m ∈ indexOf x.engine.files x.engine.current src, m ∈ x.engine.index src) →
          ∃ edges cache, getNeighborsTypedInternal x.engine.files x.engine.heap x.engine.current
              x.engine.index src edgeType s x.engine.metadataCache = .ok edges cache ∧
            ∀ r, r ∈ edges ↔ (r.src = src ∧ TypeMatches edgeType r) ∧
              Newest (asOf {r | r ∈ x.inserted} s) r ∧ r.marker = .insert := by
  obtain ⟨K, hsound, -, hlisted⟩ := listed_invariant hopened hrun
  obtain ⟨-, -, -, hlast⟩ := listed_invariant hopened (hrun.imp fun _ _ hP => hP.last)
  exact ⟨hlisted.active_mem, fun m hm => (hlast.complete.memgraph m hm).imp_right CoversAt.covers,
    fun src edgeType hindex => hlisted.lookup hsound src edgeType hindex⟩

/-- Only flushes run, and each publishes before the next rotation. -/
def flushesInTurn (x : Sys) : Action → Bool
  | .job p _ =>
      match x.jobs p with
      | some { kind := .flush _, stage := .publish old _ } => x.engine.active ∈ old.memgraphs
      | some { kind := .flush _, stage := _ } => true
      | some _ => false
      | none => true
  | _ => true

theorem losesNothing_of_flushesInTurn {a : Action} (h : x.flushesInTurn a = true) :
    x.LosesNothing s a := by
  rintro p fault rfl ⟨kind, stage⟩ hj
  rw [flushesInTurn, hj] at h
  cases kind with
  | flush m =>
      refine ⟨fun _ => Or.inl ⟨m, rfl⟩, fun old outputs hstage => ?_, fun _ _ _ _ _ hkind => ?_⟩
      · cases hstage
        exact of_decide_eq_true h
      · cases hkind
  | full l0Files l1Files => cases h
  | target selectedL0 selectedL1 => cases h

/-- The steps of a call that inserts an edge. -/
def insertSteps (c : CallId) (src dst : VertexId) : List Action := [.insertEdge c src dst 1, .write c]

/-- A call flushes; the flush goes as far as to the version it pins. -/
def flushSteps (c : CallId) (m : MemGraphId) : List Action :=
  [.flushActive c, .spawn c] ++ List.replicate 7 (.job (.task m) none)

theorem listed_of_reaches_oneFlush :
    ∃ e x, newEngine = some e ∧
      run step (fun x a => x.flushesInTurn a = true) (start e)
        (insertSteps 0 1 2 ++ flushSteps 0 0 ++ List.replicate 3 (.job (.task 0) none)) = some x ∧
      x.engine.active ∈ x.engine.current.memgraphs ∧
        (∀ m < x.engine.nextMemGraphId, m ∈ x.engine.current.memgraphs ∨
          Covers (fileRecords x.engine.files x.engine.current.files)
            {r | (x.engine.heap m).Stores r}) ∧
        ∀ src edgeType,
          (∀ m ∈ indexOf x.engine.files x.engine.current src, m ∈ x.engine.index src) →
            ∃ edges cache, getNeighborsTypedInternal x.engine.files x.engine.heap x.engine.current
                x.engine.index src edgeType 1 x.engine.metadataCache = .ok edges cache ∧
              ∀ r, r ∈ edges ↔ (r.src = src ∧ TypeMatches edgeType r) ∧
                Newest (asOf {r | r ∈ x.inserted} 1) r ∧ r.marker = .insert := by
  have hruns : (newEngine.bind fun e =>
      run step (fun x a => x.flushesInTurn a = true) (start e) (insertSteps 0 1 2 ++
        flushSteps 0 0 ++ List.replicate 3 (.job (.task 0) none))).isSome := by decide +kernel
  obtain ⟨e, x, he, hrun⟩ := exists_run_of_isSome hruns
  exact ⟨e, x, he, hrun, listed_of_reaches (opened_newEngine he)
    ((reaches_of_run hrun).imp fun _ _ h => losesNothing_of_flushesInTurn h)⟩

/-- **A flush that publishes after a rotation loses the active memgraph.** -/
theorem active_lost :
    ∃ e x, Opened e ∧
      run step (fun _ _ => True) (start e) (insertSteps 0 1 2 ++ flushSteps 0 0 ++
        insertSteps 1 1 3 ++ [.flushActive 1, .job (.task 0) none]) = some x ∧
      x.engine.active ∉ x.engine.current.memgraphs := by
  have hruns : newEngine.any fun e =>
      (run step (fun _ _ => True) (start e) (insertSteps 0 1 2 ++ flushSteps 0 0 ++
        insertSteps 1 1 3 ++ [.flushActive 1, .job (.task 0) none])).any fun x =>
          decide (x.engine.active ∉ x.engine.current.memgraphs) := by decide +kernel
  obtain ⟨e, he, hrun⟩ := (Option.any_eq_true _ _).mp hruns
  obtain ⟨x, hx, hlost⟩ := (Option.any_eq_true _ _).mp hrun
  exact ⟨e, x, opened_newEngine he, hx, of_decide_eq_true hlost⟩

end Sys

end LsmGraph
