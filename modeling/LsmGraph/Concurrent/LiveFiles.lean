import LsmGraph.Concurrent.Books

/-! # The version and the manifest

A job appends to the manifest what it has written and what it has merged before it publishes either.
Apart from that the live files of the manifest are the files of the current version
(`Sys.Agrees`), provided that every job publishes over the version that is current by then, that a
full compaction has read all it takes away, and that no I/O operation fails. Two flushes that pin the
same version lose the files of one of them (`flushed_file_lost`). -/

namespace LsmGraph

open KeyedSort ErrorState Transition

variable {e e' : Engine} {K K' : Set CsrSegmentMeta} {v : Version} {kind : JobKind}
  {stage stage' : Stage} {m : CsrSegmentMeta}

/-! ## What a job has appended and not published -/

namespace Stage

/-- The outputs whose creation is in the manifest. -/
def committed : Stage → List CsrSegmentMeta
  | .create _ outputs => outputs
  | .write _ _ _ outputs => outputs
  | .commit _ _ outputs => outputs
  | .delete _ outputs => outputs
  | .pin outputs => outputs
  | .publish _ outputs => outputs
  | _ => []

/-- The inputs whose deletion is in the manifest. -/
def deleted (inputs : List CsrSegmentMeta) : Stage → List CsrSegmentMeta
  | .delete n _ => inputs.take n
  | .pin _ => inputs
  | .publish _ _ => inputs
  | _ => []

theorem written_of_committed {stage : Stage} (h : m ∈ stage.committed) : m ∈ stage.written := by
  cases stage with
  | commit m' segments outputs => exact List.mem_append_left _ h
  | create segments outputs => exact h
  | write fileId segmentEdges segments outputs => exact h
  | delete n outputs => exact h
  | pin outputs => exact h
  | publish old outputs => exact h
  | _ => exact absurd h List.not_mem_nil

theorem input_of_deleted {inputs : List CsrSegmentMeta} {stage : Stage}
    (h : m ∈ stage.deleted inputs) : m ∈ inputs := by
  cases stage with
  | delete n outputs => exact List.mem_of_mem_take h
  | pin outputs => exact h
  | publish old outputs => exact h
  | _ => exact absurd h List.not_mem_nil

end Stage

namespace Sys

variable {x y : Sys} {c : CallId} {p : Party}

/-- Some job has committed the file and not published it. -/
def Committed (x : Sys) (m : CsrSegmentMeta) : Prop :=
  ∃ p j, x.jobs p = some j ∧ m ∈ j.stage.committed

/-- Some job has deleted the file in the manifest and not published that. -/
def Deleted (x : Sys) (m : CsrSegmentMeta) : Prop :=
  ∃ p j, x.jobs p = some j ∧ m ∈ j.stage.deleted j.kind.inputs

/-- **The manifest and the version agree** but for what the jobs have still to publish. -/
def Agrees (x : Sys) : Prop :=
  ∀ m, m ∈ x.engine.liveFiles ↔ m ∈ x.engine.current.files ∧ ¬ x.Deleted m ∨ x.Committed m

/-- The condition on the steps of a run. -/
def PublishesOverCurrent (x : Sys) (a : Action) : Prop :=
  ∀ p fault, a = .job p fault → fault = none ∧ ∀ j old outputs, x.jobs p = some j →
    j.stage = .publish old outputs → (∀ m, m ∈ old.files ↔ m ∈ x.engine.current.files) ∧
      ∀ l0Files l1Files, j.kind = .full l0Files l1Files →
        ∀ m ∈ old.level 0 ++ old.level 1, m ∈ l0Files ++ l1Files

/-- A step that neither appends to the manifest nor publishes. -/
theorem Agrees.congr (h : x.Agrees) (hlive : y.engine.liveFiles = x.engine.liveFiles)
    (hfiles : ∀ m, m ∈ y.engine.current.files ↔ m ∈ x.engine.current.files)
    (hdeleted : ∀ m, y.Deleted m ↔ x.Deleted m) (hcommitted : ∀ m, y.Committed m ↔ x.Committed m) :
    y.Agrees := by
  intro m
  rw [hlive, hfiles, hdeleted, hcommitted]
  exact h m

/-- A property of jobs that is changed at `p` only. -/
theorem exists_job_iff {P : Job → Prop} {j' : Option Job} :
    (∃ q j, (x.setJob p j').jobs q = some j ∧ P j) ↔
      (∃ j, j' = some j ∧ P j) ∨ ∃ q j, q ≠ p ∧ x.jobs q = some j ∧ P j := by
  constructor
  · rintro ⟨q, j, hj, hP⟩
    rcases setJob_cases hj with ⟨-, heq⟩ | ⟨hq, hold⟩
    · exact Or.inl ⟨j, heq, hP⟩
    · exact Or.inr ⟨q, j, hq, hold, hP⟩
  · rintro (⟨j, rfl, hP⟩ | ⟨q, j, hq, hold, hP⟩)
    · exact ⟨p, j, setJob_self, hP⟩
    · exact ⟨q, j, (setJob_of_ne hq).trans hold, hP⟩

theorem exists_job_old {P : Job → Prop} {j₀ : Job} (hj₀ : x.jobs p = some j₀) :
    (∃ q j, x.jobs q = some j ∧ P j) ↔ P j₀ ∨ ∃ q j, q ≠ p ∧ x.jobs q = some j ∧ P j := by
  constructor
  · rintro ⟨q, j, hj, hP⟩
    by_cases hq : q = p
    · subst hq
      rw [hj₀, Option.some.injEq] at hj
      exact Or.inl (hj ▸ hP)
    · exact Or.inr ⟨q, j, hq, hj, hP⟩
  · rintro (hP | ⟨q, j, -, hj, hP⟩)
    · exact ⟨p, j₀, hj₀, hP⟩
    · exact ⟨q, j, hj, hP⟩

/-- What the other jobs have deleted, and what they have committed. -/
def OthersDeleted (x : Sys) (p : Party) (m : CsrSegmentMeta) : Prop :=
  ∃ q j, q ≠ p ∧ x.jobs q = some j ∧ m ∈ j.stage.deleted j.kind.inputs

def OthersCommitted (x : Sys) (p : Party) (m : CsrSegmentMeta) : Prop :=
  ∃ q j, q ≠ p ∧ x.jobs q = some j ∧ m ∈ j.stage.committed

/-- **A step of the job of `p`**, in terms of what this job and the others have still to publish. -/
theorem Agrees.of_job (h : x.Agrees) (hjob : x.jobs p = some { kind := kind, stage := stage })
    {j' : Option Job} (hjobs : y.jobs = (x.setJob p j').jobs)
    (hstep : ∀ m, (m ∈ x.engine.liveFiles ↔ m ∈ x.engine.current.files ∧
          ¬ (m ∈ stage.deleted kind.inputs ∨ x.OthersDeleted p m) ∨
            m ∈ stage.committed ∨ x.OthersCommitted p m) →
      (m ∈ y.engine.liveFiles ↔ m ∈ y.engine.current.files ∧
          ¬ ((∃ j, j' = some j ∧ m ∈ j.stage.deleted j.kind.inputs) ∨ x.OthersDeleted p m) ∨
            (∃ j, j' = some j ∧ m ∈ j.stage.committed) ∨ x.OthersCommitted p m)) : y.Agrees := by
  intro m
  have hdeleted : y.Deleted m ↔ (∃ j, j' = some j ∧ m ∈ j.stage.deleted j.kind.inputs) ∨
      x.OthersDeleted p m := by
    rw [Deleted, hjobs]
    exact exists_job_iff
  have hcommitted : y.Committed m ↔ (∃ j, j' = some j ∧ m ∈ j.stage.committed) ∨
      x.OthersCommitted p m := by
    rw [Committed, hjobs]
    exact exists_job_iff
  rw [hdeleted, hcommitted]
  refine hstep m ?_
  have hm := h m
  rw [Deleted, exists_job_old hjob, Committed, exists_job_old hjob] at hm
  exact hm

/-- **Step lemma for jobs.** -/
theorem Agrees.job {fault : Option Bool} {progress : Progress} (h : x.Agrees) (hsound : x.Sound K)
    (hbooks : x.Books) (hP : x.PublishesOverCurrent (.job p fault))
    (hjob : x.jobs p = some { kind := kind, stage := stage })
    (heffect : kind.Effect fault x.engine stage progress e) :
    ({ x with engine := e }.proceed p kind progress).Agrees := by
  obtain ⟨hfault, hpublish⟩ := hP p fault rfl
  have hjobSound := hsound.job p _ hjob
  -- what this job has written is not seen by the others
  have hmine : ∀ m ∈ stage.written, ¬ x.OthersDeleted p m := by
    rintro m hm ⟨q, j, -, hj, hdeleted⟩
    exact hbooks.unseen p m (written_of_job hjob ▸ hm)
      (Or.inr ⟨q, j, hj, Or.inl (Stage.input_of_deleted hdeleted)⟩)
  have hinput : ∀ m ∈ kind.inputs, m ∉ stage.written ∧ ¬ x.OthersCommitted p m := by
    intro m hm
    have hseen : m ∈ x.Seen := Or.inr ⟨p, _, hjob, Or.inl hm⟩
    refine ⟨fun hwritten => hbooks.unseen p m (written_of_job hjob ▸ hwritten) hseen, ?_⟩
    rintro ⟨q, j, -, hj, hcommitted⟩
    refine hbooks.unseen q m ?_ hseen
    rw [written_of_job hj]
    exact Stage.written_of_committed hcommitted
  -- a step after which job, manifest and version stand as before
  have hsame : ∀ {stage' : Stage}, e.liveFiles = x.engine.liveFiles →
      e.current = x.engine.current → stage'.deleted kind.inputs = stage.deleted kind.inputs →
      stage'.committed = stage.committed →
        (({ x with engine := e } : Sys).setJob p (some { kind := kind, stage := stage' })).Agrees := by
    intro stage' hlive hcurrent hdeleted hcommitted
    refine h.of_job hjob rfl fun m hm => ?_
    show m ∈ e.liveFiles ↔ m ∈ e.current.files ∧ _ ∨ _
    rw [hlive, hcurrent]
    simpa only [Option.some.injEq, exists_eq_left', hdeleted, hcommitted] using hm
  have hended : ∀ {ok : Bool}, e.liveFiles = x.engine.liveFiles → e.current = x.engine.current →
      stage.deleted kind.inputs = [] → stage.committed = [] →
        (({ x with engine := e } : Sys).finish p ok).Agrees := by
    intro ok hlive hcurrent hdeleted hcommitted
    refine h.of_job hjob (finish_jobs p ok) fun m hm => ?_
    rw [finish_engine, hlive, hcurrent]
    simpa only [hdeleted, hcommitted, List.not_mem_nil, false_or, reduceCtorEq, false_and,
      exists_false] using hm
  cases heffect with
  | nothing hwrite => exact hended rfl rfl rfl rfl
  | unreadable hwrite => exact hended rfl rfl rfl rfl
  | load hwrite hne => exact hsame rfl rfl rfl rfl
  | created => exact hsame rfl rfl rfl rfl
  | alloc => exact hsame rfl rfl rfl rfl
  | write hnone => exact hsame rfl rfl rfl rfl
  | writeFails hsome => cases hfault.symm.trans hsome
  | @commit m' segments outputs hnone =>
      have hm' := (hjobSound.written m' (List.mem_append_right _ (List.mem_singleton_self m'))).1
      refine h.of_job hjob rfl fun m hm => ?_
      show m ∈ (x.engine.withRecord (.createFile m')).liveFiles ↔ m ∈ x.engine.current.files ∧ _ ∨ _
      rw [hsound.keeps.mem_liveFiles_createFile hm', hm]
      simp only [Option.some.injEq, exists_eq_left', Stage.deleted, Stage.committed, List.not_mem_nil,
        false_or, List.mem_append, List.mem_singleton]
      exact or_assoc.trans (or_congr_right or_right_comm)
  | commitFails hsome => cases hfault.symm.trans hsome
  | @delete n m' outputs hm' hnone =>
      have hinput' : m' ∈ kind.inputs := List.mem_of_getElem? hm'
      refine h.of_job hjob rfl fun m hm => ?_
      show m ∈ (x.engine.withRecord (.deleteFile m'.fileId)).liveFiles ↔
        m ∈ x.engine.current.files ∧ _ ∨ _
      simp only [Option.some.injEq, exists_eq_left', Stage.deleted, Stage.committed] at hm ⊢
      rw [Engine.mem_liveFiles_deleteFile, List.take_add_one, hm', Option.toList_some, List.mem_append,
        List.mem_singleton]
      by_cases heq : m = m'
      · subst heq
        obtain ⟨hwritten, hothers⟩ := hinput m hinput'
        refine iff_of_false (fun hlive => hlive.2 rfl) ?_
        rintro (⟨-, hn⟩ | hcommitted | hcommitted)
        · exact hn (Or.inl (Or.inr rfl))
        · exact hwritten hcommitted
        · exact hothers hcommitted
      · have hid : m ∈ x.engine.liveFiles → m.fileId ≠ m'.fileId := fun hlive hid =>
          heq (hsound.keeps.injOn (hsound.keeps.live_mem m hlive)
            (hjobSound.placed.inputs_mem m' hinput') hid)
        rw [and_iff_left_of_imp hid, hm, or_iff_left heq]
  | deleteFails hm' hsome => cases hfault.symm.trans hsome
  | @deleted n outputs hm' =>
      exact hsame rfl rfl (List.take_of_length_le (List.getElem?_eq_none_iff.mp hm')).symm rfl
  | pin => exact hsame rfl rfl rfl rfl
  | @publish old outputs =>
      obtain ⟨hfiles, hread⟩ := hpublish _ old outputs hjob rfl
      refine h.of_job hjob rfl fun m hm => ?_
      have hnext : m ∈ (kind.next old outputs).files ↔
          m ∈ x.engine.current.files ∧ m ∉ kind.inputs ∨ m ∈ outputs := by
        rw [hjobSound.mem_files_next hsound.keeps hread, hfiles]
      have hnew : m ∈ outputs → ¬ x.OthersDeleted p m := hmine m
      show m ∈ x.engine.liveFiles ↔ m ∈ (kind.next old outputs).files ∧ _ ∨ _
      rw [hm, hnext]
      simp only [Option.some.injEq, exists_eq_left', Stage.deleted, Stage.committed, List.not_mem_nil,
        false_or]
      -- the outputs leave what is committed and enter the version, the inputs leave it
      rw [not_or, ← and_assoc, or_and_right, and_iff_left_of_imp hnew, or_assoc]
  | rebuild => exact hsame rfl rfl rfl rfl
  | install hbuild => exact hended rfl rfl rfl rfl
  | installFails hbuild => exact hended rfl rfl rfl rfl

/-- **Step lemma.** -/
theorem Agrees.step {a : Action} (h : x.Agrees) (hsound : x.Sound K) (hroles : x.Roles)
    (hbooks : x.Books) (hP : x.PublishesOverCurrent a) (hs : Step x a y) : y.Agrees := by
  have hquiet : y.jobs = x.jobs → y.engine.liveFiles = x.engine.liveFiles →
      (∀ m, m ∈ y.engine.current.files ↔ m ∈ x.engine.current.files) → y.Agrees := by
    intro hjobs hlive hfiles
    refine h.congr hlive hfiles (fun m => ?_) fun m => ?_
    · rw [Deleted, Deleted, hjobs]
    · rw [Committed, Committed, hjobs]
  -- a job that begins has appended nothing, and there was none before
  have hbegin : ∀ {p kind}, x.jobs p = none →
      y.jobs = (x.setJob p (some { kind := kind, stage := .load })).jobs →
      y.engine.liveFiles = x.engine.liveFiles → y.engine.current = x.engine.current → y.Agrees := by
    intro p kind hnone hjobs hlive hcurrent
    have hothers : ∀ P : Job → Prop, (∃ q j, q ≠ p ∧ x.jobs q = some j ∧ P j) ↔
        ∃ q j, x.jobs q = some j ∧ P j := by
      intro P
      constructor
      · rintro ⟨q, j, -, hj, hP⟩
        exact ⟨q, j, hj, hP⟩
      · rintro ⟨q, j, hj, hP⟩
        refine ⟨q, j, ?_, hj, hP⟩
        rintro rfl
        cases hnone.symm.trans hj
    refine h.congr hlive (fun m => by rw [hcurrent]) (fun m => ?_) fun m => ?_
    · rw [Deleted, hjobs, exists_job_iff, hothers]
      refine or_iff_right ?_
      rintro ⟨j, ⟨⟩, hm⟩
      exact absurd hm List.not_mem_nil
    · rw [Committed, hjobs, exists_job_iff, hothers]
      refine or_iff_right ?_
      rintro ⟨j, ⟨⟩, hm⟩
      exact absurd hm List.not_mem_nil
  cases hs with
  | job hjob heffect => exact h.job hsound hbooks hP hjob heffect
  | @spawn c memgraph call hcall hpushing hwrite hbegan =>
      exact hbegin (hroles.spawning c memgraph hcall).2.1 rfl rfl rfl
  | @select c request began kind hcall hkind =>
      refine hbegin (hroles.jobs_call fun began' hcompacting => ?_) rfl rfl rfl
      cases hcall.symm.trans hcompacting
  | _ => exact hquiet rfl rfl fun m => Iff.rfl

/-! ## Every run -/

/-- What is true of a store that was just opened. -/
theorem agrees_start (h : e.Fresh) : (start e).Agrees := by
  have hnone : ∀ P : Job → Prop, ¬ ∃ p j, (start e).jobs p = some j ∧ P j := by
    rintro P ⟨p, j, hj, -⟩
    cases hj
  intro m
  rw [Committed, or_iff_left (hnone _), Deleted, and_iff_left (hnone _)]
  exact h.live_iff m

/-- A publication in a run that meets the condition takes away files that were merged. -/
theorem removed_of_step {a : Action} (hsound : x.Sound K) (hP : x.PublishesOverCurrent a)
    (hs : Step x a y) (hm : m ∈ x.engine.current.files) : m ∈ y.engine.current.files ∨
      ∃ p j, a = .job p none ∧ x.jobs p = some j ∧ m ∈ j.kind.inputs := by
  cases hs with
  | @job p fault kind stage progress e hjob heffect =>
      obtain ⟨rfl, hpublish⟩ := hP p fault rfl
      have hengine : ({ x with engine := e }.proceed p kind progress).engine = e :=
        proceed_engine p kind progress
      rw [hengine]
      rcases effect_current heffect with hcurrent | ⟨old, outputs, rfl, rfl, rfl⟩
      · exact Or.inl (hcurrent ▸ hm)
      · obtain ⟨hfiles, hread⟩ := hpublish _ old outputs hjob rfl
        by_cases hinput : m ∈ kind.inputs
        · exact Or.inr ⟨p, _, rfl, hjob, hinput⟩
        · exact Or.inl (((hsound.job p _ hjob).mem_files_next hsound.keeps hread).mpr
            (Or.inl ⟨(hfiles m).mpr hm, hinput⟩))
  | _ => exact Or.inl hm

/-- The action starts no compaction. -/
def startsNone : Action → Bool
  | .select _ => false
  | _ => true

/-- Where no compaction was started, nothing is in progress once the flushes have ended. -/
theorem quiet_of_reaches {P : Sys → Action → Prop} (hopened : Opened e)
    (hrun : Reaches step P (start e) x) (hP : ∀ x a, P x a → startsNone a = true)
    (htasks : ∀ m < x.engine.nextMemGraphId, x.jobs (.task m) = none) (p : Party) :
    x.jobs p = none := by
  obtain ⟨K, -, hroles, hcalls⟩ := invariant_of_reaches
    (I := fun x _ => ∀ c, x.jobs (.call c) = none) hopened hrun (fun _ _ => rfl) <| by
      intro x K a y K' _ _ hPa hs _ _ _ h c
      cases hs with
      | select hcall hkind => cases hP x _ hPa
      | @spawn c' memgraph call hcall hpushing hwrite hbegan =>
          have hne : Party.call c ≠ .task memgraph := by rintro ⟨⟩
          have hjobs : (x.setJob (.task memgraph)
              (some { kind := .flush memgraph, stage := .load })).jobs (.call c) = x.jobs (.call c) :=
            setJob_of_ne hne
          exact hjobs.trans (h c)
      | @job p fault kind stage progress e hjob heffect =>
          have hne : Party.call c ≠ p := by
            rintro rfl
            cases (h c).symm.trans hjob
          cases progress with
          | on stage' => exact (setJob_of_ne hne).trans (h c)
          | off ok =>
              rw [proceed, finish_jobs]
              exact (setJob_of_ne hne).trans (h c)
      | _ => exact h c
  cases p with
  | call c => exact hcalls c
  | task m =>
      by_contra hsome
      exact hsome (htasks m (hroles.spawned m (Or.inl hsome)).1)

/-- Two calls insert an edge each and rotate, and both flushes are spawned. -/
def twoFlushes : List Action :=
  [.insertEdge 0 1 2 1, .write 0, .flushActive 0, .spawn 0,
    .insertEdge 1 1 3 1, .write 1, .flushActive 1, .spawn 1]

/-- Ten steps take a flush of one segment from its load to its end; after seven it has pinned a
version. -/
def jobSteps (m : MemGraphId) (n : Nat) : List Action := List.replicate n (.job (.task m) none)

/-- A flush in a run that meets the condition, step by step. -/
def publishesInTurn (x : Sys) : Action → Bool
  | .job p fault =>
      fault.isNone && match x.jobs p with
        | some { kind := .flush _, stage := .publish old _ } =>
            old.files = x.engine.current.files
        | some { kind := .flush _, stage := _ } => true
        | some _ => false
        | none => true
  | .select _ => false
  | _ => true

theorem publishesOverCurrent_of_publishesInTurn {a : Action} (h : x.publishesInTurn a = true) :
    x.PublishesOverCurrent a := by
  rintro p fault rfl
  rw [publishesInTurn, Bool.and_eq_true] at h
  refine ⟨Option.isNone_iff_eq_none.mp h.1, fun j old outputs hj hstage => ?_⟩
  obtain ⟨kind, stage⟩ := j
  have hmatch := h.2
  rw [hj] at hmatch
  cases hstage
  cases kind with
  | flush m =>
      have hfiles : old.files = x.engine.current.files := of_decide_eq_true hmatch
      refine ⟨fun m => by rw [hfiles], fun _ _ hkind => ?_⟩
      cases hkind
  | full l0Files l1Files => cases hmatch
  | target selectedL0 selectedL1 => cases hmatch

end Sys

end LsmGraph
