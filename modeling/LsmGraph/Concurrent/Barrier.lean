import LsmGraph.Concurrent.LiveFiles

/-! # `flush_active` as a barrier

What the live files of the manifest hold is superseded at most, whoever flushes or compacts and
whatever fails (`JobKind.Effect.liveRecords_covers`). So a memgraph whose flush has ended with `Ok`
stays durable, and `flush_active` returns `Ok` with everything durable that was inserted before the
call, provided that it finds the list of handles empty only once the flushes of these memgraphs have
ended with `Ok` (`durable_of_reaches`). Another call that has taken a handle and still waits for it is
enough for the contrary (`barrier_passed`). -/

namespace LsmGraph

open KeyedSort ErrorState Transition

variable {e e' : Engine} {K K' : Set CsrSegmentMeta} {kind : JobKind} {stage stage' : Stage}
  {m : CsrSegmentMeta} {fault : Option Bool} {progress : Progress}

/-! ## The manifest over time -/

/-- What a step of a job appends to the manifest. -/
theorem JobKind.Effect.appends (h : kind.Effect fault e stage progress e') :
    e'.liveFiles = e.liveFiles ∨
      (∃ m segments outputs, stage = .commit m segments outputs ∧
        e'.liveFiles = (e.withRecord (.createFile m)).liveFiles) ∨
      ∃ n m outputs, stage = .delete n outputs ∧ kind.inputs[n]? = some m ∧
        e'.liveFiles = (e.withRecord (.deleteFile m.fileId)).liveFiles := by
  cases h with
  | commit hnone => exact Or.inr (Or.inl ⟨_, _, _, rfl, rfl⟩)
  | @commitFails m segments outputs durable hsome =>
      cases durable with
      | true => exact Or.inr (Or.inl ⟨_, _, _, rfl, rfl⟩)
      | false => exact Or.inl rfl
  | delete hm hnone => exact Or.inr (Or.inr ⟨_, _, _, rfl, hm, rfl⟩)
  | @deleteFails n m outputs durable hm hsome =>
      cases durable with
      | true => exact Or.inr (Or.inr ⟨_, _, _, rfl, hm, rfl⟩)
      | false => exact Or.inl rfl
  | @writeFails fileId segmentEdges segments outputs durable hsome =>
      cases durable with
      | true => exact Or.inl rfl
      | false => exact Or.inl rfl
  | _ => exact Or.inl rfl

/-- A live file stays live unless the job has it among its inputs. -/
theorem JobKind.Effect.mem_liveFiles (h : kind.Effect fault e stage progress e') (hkeeps : e.Keeps K)
    (hjob : Job.Sound e K kind stage) (hm : m ∈ e.liveFiles) (hinput : m ∉ kind.inputs) :
    m ∈ e'.liveFiles := by
  rcases h.appends with heq | ⟨m', segments, outputs, rfl, heq⟩ | ⟨n, m', outputs, rfl, hm', heq⟩
  · exact heq ▸ hm
  · have hmem := (hjob.written m' (List.mem_append_right _ (List.mem_singleton_self m'))).1
    rw [heq, hkeeps.mem_liveFiles_createFile hmem]
    exact Or.inl hm
  · have hmem := List.mem_of_getElem? hm'
    rw [heq, Engine.mem_liveFiles_deleteFile]
    refine ⟨hm, fun hid => hinput ?_⟩
    rw [hkeeps.injOn (hkeeps.live_mem m hm) (hjob.placed.inputs_mem m' hmem) hid]
    exact hmem

/-- **What the live files hold is superseded at most.** A job deletes its inputs when its outputs,
which cover them, are live. -/
theorem JobKind.Effect.liveRecords_covers (h : kind.Effect fault e stage progress e')
    (hkeeps : e.Keeps K) (hjob : Job.Sound e K kind stage) (hext : e.Extends e' K K')
    (hcommitted : ∀ m ∈ stage.committed, m ∈ e.liveFiles)
    (hunseen : ∀ m ∈ stage.written, m ∉ kind.inputs) : Covers e'.liveRecords e.liveRecords := by
  have hkept : ∀ m ∈ e.liveFiles, m ∉ kind.inputs → ∀ r ∈ segmentRecords e.files m,
      r ∈ e'.liveRecords := by
    intro m hm hinput r hr
    refine ⟨m, h.mem_liveFiles hkeeps hjob hm hinput, ?_⟩
    rwa [hext.segmentRecords_eq (hkeeps.live_mem m hm)]
  rintro r ⟨m, hm, hr⟩
  by_cases hinput : m ∈ kind.inputs
  · rcases h.appends with heq | ⟨m', segments, outputs, rfl, heq⟩ | ⟨n, m', outputs, rfl, hm', heq⟩
    · refine ⟨r, ⟨m, heq ▸ hm, ?_⟩, rfl, le_rfl⟩
      rwa [hext.segmentRecords_eq (hkeeps.live_mem m hm)]
    · have hmem := (hjob.written m' (List.mem_append_right _ (List.mem_singleton_self m'))).1
      refine ⟨r, ⟨m, ?_, ?_⟩, rfl, le_rfl⟩
      · rw [heq, hkeeps.mem_liveFiles_createFile hmem]
        exact Or.inl hm
      · rwa [hext.segmentRecords_eq (hkeeps.live_mem m hm)]
    · -- the outputs are live, and none of them is an input
      have hsource : r ∈ kind.source e := by
        cases kind with
        | flush memgraph => exact absurd hinput List.not_mem_nil
        | full l0Files l1Files => exact ⟨m, hinput, hr⟩
        | target selectedL0 selectedL1 => exact ⟨m, hinput, hr⟩
      obtain ⟨r', hr', hrel⟩ := hjob.covers trivial r hsource
      rcases hr' with ⟨m'', hm'', hr'⟩ | hr'
      · exact ⟨r', hkept m'' (hcommitted m'' hm'') (hunseen m'' hm'') r' hr', hrel⟩
      · exact absurd hr' List.not_mem_nil
  · exact ⟨r, hkept m hm hinput r hr, rfl, le_rfl⟩

/-- The files a job has committed after a step are those from before, and the one it commits. -/
theorem JobKind.Effect.committed_live (h : kind.Effect fault e stage (.on stage') e')
    (hkeeps : e.Keeps K) (hjob : Job.Sound e K kind stage)
    (hcommitted : ∀ m ∈ stage.committed, m ∈ e.liveFiles)
    (hunseen : ∀ m ∈ stage.written, m ∉ kind.inputs) (hm : m ∈ stage'.committed) :
    m ∈ e'.liveFiles := by
  have hold : m ∈ stage.committed → m ∈ e'.liveFiles := fun hm =>
    h.mem_liveFiles hkeeps hjob (hcommitted m hm) (hunseen m (Stage.written_of_committed hm))
  cases h with
  | load hwrite hne => exact absurd hm List.not_mem_nil
  | publish => exact absurd hm List.not_mem_nil
  | rebuild => exact absurd hm List.not_mem_nil
  | @commit m' segments outputs hnone =>
      rcases List.mem_append.mp hm with hm | hm
      · exact hold hm
      · have hmem := (hjob.written m' (List.mem_append_right _ (List.mem_singleton_self m'))).1
        exact (hkeeps.mem_liveFiles_createFile hmem m).mpr (Or.inr (List.mem_singleton.mp hm))
  | created => exact hold hm
  | alloc => exact hold hm
  | write hnone => exact hold hm
  | delete hm' hnone => exact hold hm
  | deleted hm' => exact hold hm
  | pin => exact hold hm

/-! ## Durability -/

namespace Call

/-- The records that were inserted before the `flush_active` the call is in. -/
def began : Call → Option (List EdgeRecord)
  | .spawningFlush _ began => some began
  | .pushingFlush _ began => some began
  | .waiting _ began => began
  | .awaiting _ _ began => began
  | .selecting _ began => began
  | .compacting began => began
  | .flushed began => some began
  | _ => none

/-- The same, once `flush_active` has found the list of handles empty. -/
def passed : Call → Option (List EdgeRecord)
  | .waiting (some _) began => began
  | .awaiting _ (some _) began => began
  | .selecting _ began => began
  | .compacting began => began
  | .flushed began => some began
  | _ => none

/-- `flush_active` is returning `Ok`. -/
def hasFlushed : Call → Bool
  | .flushed _ => true
  | _ => false

theorem hasFlushed_iff {call : Call} : call.hasFlushed = true ↔ ∃ b, call = .flushed b := by
  cases call with
  | flushed b => exact iff_of_true rfl ⟨b, rfl⟩
  | _ => exact iff_of_false Bool.false_ne_true (by rintro ⟨b, ⟨⟩⟩)

/-- A call whose compaction has ended is idle, or holds the edges its flush began with. -/
theorem returned_cases (b : Option (List EdgeRecord)) (ok : Bool) :
    (if ok then Sys.returned b else Call.idle) = .idle ∨
      ∃ b', b = some b' ∧ (if ok then Sys.returned b else Call.idle) = .flushed b' := by
  cases ok with
  | false => exact Or.inl rfl
  | true =>
      cases b with
      | none => exact Or.inl rfl
      | some b' => exact Or.inr ⟨b', rfl, rfl⟩

theorem began_returned (b : Option (List EdgeRecord)) (ok : Bool) {b' : List EdgeRecord}
    (h : (if ok then Sys.returned b else Call.idle).began = some b') : b = some b' := by
  rcases returned_cases b ok with heq | ⟨b'', rfl, heq⟩
  · rw [heq] at h
    cases h
  · rw [heq] at h
    exact h

theorem passed_returned (b : Option (List EdgeRecord)) (ok : Bool) {b' : List EdgeRecord}
    (h : (if ok then Sys.returned b else Call.idle).passed = some b') : b = some b' := by
  rcases returned_cases b ok with heq | ⟨b'', rfl, heq⟩
  · rw [heq] at h
    cases h
  · rw [heq] at h
    exact h

end Call

namespace Sys

variable {x y : Sys} {c : CallId} {p : Party} {call : Call}

/-- Live files hold the records of the memgraph, or newer ones of the same edges. -/
def Flushed (x : Sys) (m : MemGraphId) : Prop :=
  Covers x.engine.liveRecords {r | (x.engine.heap m).Stores r}

/-- **What is durable.** Files that are committed and not published are live; a flush that has
published has its memgraph in live files, and so has one that has ended with `Ok`; what a
`flush_active` is about is recovered or in memgraphs that were rotated out; and once it has found the
list of handles empty it is in live files. -/
structure Durable (x : Sys) : Prop where
  committed : ∀ p j, x.jobs p = some j → ∀ m ∈ j.stage.committed, m ∈ x.engine.liveFiles
  published : ∀ m j, x.jobs (.task m) = some j → (j.stage = .rebuild ∨ ∃ v, j.stage = .install v) →
    x.Flushed m
  ended : ∀ m, x.ended m = some true → x.Flushed m
  recovered : Covers x.engine.liveRecords {r | r ∈ x.recovered}
  began : ∀ c began, (x.calls c).began = some began → ∀ r ∈ began, r ∈ x.recovered ∨
    ∃ m, x.engine.Frozen m ∧ (x.engine.heap m).Stores r
  passed : ∀ c began, (x.calls c).passed = some began → Covers x.engine.liveRecords {r | r ∈ began}

/-- The condition on the steps of a run: when a `flush_active` finds the list of handles empty, the
flushes of the memgraphs it is about have ended with `Ok`. -/
def HandlesEnded (x : Sys) (a : Action) : Prop :=
  ∀ c began, a = .pop c → x.calls c = .waiting none (some began) → x.engine.flushTasks = [] →
    ∀ m, x.engine.Frozen m → (∃ r ∈ began, (x.engine.heap m).Stores r) → x.ended m = some true

/-- A frozen memgraph stays durable as long as live files are superseded at most. -/
theorem Flushed.mono {m : MemGraphId} (h : x.Flushed m) (hfrozen : x.engine.Frozen m)
    (hext : x.engine.Extends y.engine K K')
    (hlive : Covers y.engine.liveRecords x.engine.liveRecords) : y.Flushed m := by
  rw [Flushed, (hext.frozen m hfrozen).2]
  exact Versioned.Covers.trans hlive h

/-- **A step**, in terms of what it adds. -/
theorem Durable.of_step (h : x.Durable) (hroles : x.Roles) (hext : x.engine.Extends y.engine K K')
    (hlive : Covers y.engine.liveRecords x.engine.liveRecords) (hrecovered : y.recovered = x.recovered)
    (hcommitted : ∀ p j, y.jobs p = some j → ∀ m ∈ j.stage.committed, m ∈ y.engine.liveFiles)
    (hpublished : ∀ m j, y.jobs (.task m) = some j →
      (j.stage = .rebuild ∨ ∃ v, j.stage = .install v) → y.Flushed m)
    (hended : ∀ m, y.ended m = some true → x.ended m = some true ∨ y.Flushed m)
    (hbegan : ∀ c b, (y.calls c).began = some b → (x.calls c).began = some b ∨
      ∀ r ∈ b, r ∈ x.recovered ∨ ∃ m, y.engine.Frozen m ∧ (y.engine.heap m).Stores r)
    (hpassed : ∀ c b, (y.calls c).passed = some b → (x.calls c).passed = some b ∨
      Covers y.engine.liveRecords {r | r ∈ b}) : y.Durable where
  committed := hcommitted
  published := hpublished
  ended m hm := by
    rcases hended m hm with hold | hflushed
    · have hfrozen := hroles.spawned m (Or.inr fun hnone => by cases hnone.symm.trans hold)
      exact (h.ended m hold).mono hfrozen hext hlive
    · exact hflushed
  recovered := by
    rw [hrecovered]
    exact Versioned.Covers.trans hlive h.recovered
  began c b hb r hr := by
    rw [hrecovered]
    rcases hbegan c b hb with hold | hnew
    · refine (h.began c b hold r hr).imp_right ?_
      rintro ⟨m, hfrozen, hstores⟩
      obtain ⟨hfrozen', hheap⟩ := hext.frozen m hfrozen
      exact ⟨m, hfrozen', hheap.symm ▸ hstores⟩
    · exact hnew r hr
  passed c b hb := by
    rcases hpassed c b hb with hold | hnew
    · exact Versioned.Covers.trans hlive (h.passed c b hold)
    · exact hnew

/-- A step that only concerns a call, and what it is about. -/
theorem Durable.of_call (h : x.Durable) (hroles : x.Roles) (hext : x.engine.Extends y.engine K K')
    (hliveFiles : y.engine.liveFiles = x.engine.liveFiles) (hfiles : y.engine.files = x.engine.files)
    (hrecovered : y.recovered = x.recovered)
    (hjobs : ∀ p j, y.jobs p = some j → x.jobs p = some j ∨ j.stage = .load)
    (hended : y.ended = x.ended) (hcalls : y.calls = Function.update x.calls c call)
    (hbegan : ∀ b, call.began = some b → (x.calls c).began = some b ∨
      ∀ r ∈ b, r ∈ x.recovered ∨ ∃ m, y.engine.Frozen m ∧ (y.engine.heap m).Stores r)
    (hpassed : ∀ b, call.passed = some b → (x.calls c).passed = some b ∨
      Covers x.engine.liveRecords {r | r ∈ b}) : y.Durable := by
  have hlive : y.engine.liveRecords = x.engine.liveRecords := by
    rw [Engine.liveRecords, Engine.liveRecords, hliveFiles, hfiles]
  have hcovers : Covers y.engine.liveRecords x.engine.liveRecords := hlive ▸ Versioned.Covers.refl _
  refine h.of_step hroles hext hcovers hrecovered (fun p j hj m hm => ?_) (fun m j hj hstage => ?_)
    (fun m hm => Or.inl (hended ▸ hm)) (fun c' b hb => ?_) fun c' b hb => ?_
  · rw [hliveFiles]
    rcases hjobs p j hj with hold | hload
    · exact h.committed p j hold m hm
    · rw [hload] at hm
      exact absurd hm List.not_mem_nil
  · rcases hjobs _ j hj with hold | hload
    · have hfrozen := hroles.spawned m (Or.inl fun hnone => by cases hnone.symm.trans hold)
      exact (h.published m j hold hstage).mono hfrozen hext hcovers
    · rw [hload] at hstage
      rcases hstage with hstage | ⟨v, hstage⟩
      · cases hstage
      · cases hstage
  · rw [hcalls] at hb
    by_cases hcc : c' = c
    · subst hcc
      rw [Function.update_self] at hb
      exact hbegan b hb
    · rw [Function.update_of_ne hcc] at hb
      exact Or.inl hb
  · rw [hcalls] at hb
    rw [hlive]
    by_cases hcc : c' = c
    · subst hcc
      rw [Function.update_self] at hb
      exact hpassed b hb
    · rw [Function.update_of_ne hcc] at hb
      exact Or.inl hb

/-- A flush that has nothing to write, or has published, has its memgraph in live files when it
ends. -/
theorem Durable.flushed_of_off {m : MemGraphId} (h : x.Durable)
    (hjob : x.jobs (.task m) = some { kind := .flush m, stage := stage })
    (heffect : JobKind.Effect (.flush m) fault x.engine stage (.off true) e) : x.Flushed m := by
  cases heffect with
  | nothing hwrite =>
      rintro r hr
      have hmem := (JobKind.toWrite_flush hwrite).symm.le hr
      exact absurd hmem List.not_mem_nil
  | @install v entries cache hbuild => exact h.published m _ hjob (Or.inr ⟨v, rfl⟩)

/-- A flush that publishes has its memgraph in live files. -/
theorem Durable.flushed_of_on {m : MemGraphId} (h : x.Durable) (hsound : x.Sound K)
    (hjob : x.jobs (.task m) = some { kind := .flush m, stage := stage })
    (heffect : JobKind.Effect (.flush m) fault x.engine stage (.on stage') e)
    (hstage : stage' = .rebuild ∨ ∃ v, stage' = .install v) : x.Flushed m := by
  cases heffect with
  | @publish old outputs =>
      rintro r hr
      obtain ⟨r', hr', hrel⟩ := (hsound.job _ _ hjob).covers trivial r hr
      rcases hr' with ⟨m', hm', hr'⟩ | hr'
      · exact ⟨r', ⟨m', h.committed _ _ hjob m' hm', hr'⟩, hrel⟩
      · exact absurd hr' List.not_mem_nil
  | rebuild => exact h.published m _ hjob (Or.inl rfl)
  | _ =>
      rcases hstage with hstage | ⟨v, hstage⟩
      · cases hstage
      · cases hstage

/-- A call that goes on after its compaction carries what it carried before. -/
theorem Roles.carried_of_finish (hroles : x.Roles) {j : Job} (hjob : x.jobs p = some j) {ok : Bool}
    {carried : Call → Option (List EdgeRecord)}
    (hcarried : ∀ (began : Option (List EdgeRecord)) (ok : Bool) b,
      carried (if ok then returned began else .idle) = some b →
        carried (.compacting began) = some b) {c : CallId} {b : List EdgeRecord}
    (hb : carried ((x.finish p ok).calls c) = some b) : carried (x.calls c) = some b := by
  cases p with
  | task m => exact hb
  | call c' =>
      obtain ⟨began, hcompacting, heq⟩ := finish_call hroles hjob ok
      rw [heq] at hb
      by_cases hcc : c = c'
      · -- the call itself: it was compacting, and has returned or is idle
        subst hcc
        rw [setCall_self] at hb
        exact hcompacting.symm ▸ hcarried began ok b hb
      · rwa [setCall_of_ne hcc] at hb

/-- **Step lemma for jobs.** -/
theorem Durable.job (h : x.Durable) (hsound : x.Sound K) (hroles : x.Roles) (hbooks : x.Books)
    (hjob : x.jobs p = some { kind := kind, stage := stage })
    (heffect : kind.Effect fault x.engine stage progress e) (hext : x.engine.Extends e K K') :
    ({ x with engine := e }.proceed p kind progress).Durable := by
  have hjobSound := hsound.job p _ hjob
  have hunseen : ∀ q, ∀ m ∈ x.written q, m ∉ kind.inputs := fun q m hm hinput =>
    hbooks.unseen q m hm (Or.inr ⟨p, _, hjob, Or.inl hinput⟩)
  have hmine : ∀ m ∈ stage.written, m ∉ kind.inputs := by
    have hwritten : x.written p = stage.written := written_of_job hjob
    exact hwritten ▸ hunseen p
  have hlive := heffect.liveRecords_covers hsound.keeps hjobSound hext (h.committed p _ hjob) hmine
  have hothers : ∀ q j, x.jobs q = some j → ∀ m ∈ j.stage.committed, m ∈ e.liveFiles := by
    intro q j hj m hm
    refine heffect.mem_liveFiles hsound.keeps hjobSound (h.committed q j hj m hm) (hunseen q m ?_)
    rw [written_of_job hj]
    exact Stage.written_of_committed hm
  have hmono : ∀ {m}, x.Flushed m → x.engine.Frozen m →
      Covers e.liveRecords {r | (e.heap m).Stores r} := by
    intro m hflushed hfrozen
    rw [(hext.frozen m hfrozen).2]
    exact Versioned.Covers.trans hlive hflushed
  have hpublished : ∀ m j, x.jobs (.task m) = some j → (j.stage = .rebuild ∨ ∃ v, j.stage = .install v) →
      Covers e.liveRecords {r | (e.heap m).Stores r} := fun m j hj hstage =>
    hmono (h.published m j hj hstage)
      (hroles.spawned m (Or.inl fun hnone => by cases hnone.symm.trans hj))
  cases progress with
  | on stage' =>
      -- only the stage of this job changes
      refine h.of_step hroles hext hlive rfl (fun q j hj m hm => ?_) (fun m j hj hstage => ?_)
        (fun m hm => Or.inl hm) (fun c b hb => Or.inl hb) fun c b hb => Or.inl hb
      · rcases setJob_cases hj with ⟨-, heq⟩ | ⟨-, hold⟩
        · cases heq
          exact heffect.committed_live hsound.keeps hjobSound (h.committed p _ hjob) hmine hm
        · exact hothers q j hold m hm
      · rcases setJob_cases hj with ⟨hp, heq⟩ | ⟨-, hold⟩
        · cases heq
          subst hp
          have hkind : kind = .flush m := hroles.task m _ hjob
          subst hkind
          exact hmono (h.flushed_of_on hsound hjob heffect hstage) hjobSound.placed
        · exact hpublished m j hold hstage
  | off ok =>
      -- the job is gone; a background flush has ended, a compaction returns to its call
      have hjobs : ∀ q j, ({ x with engine := e }.finish p ok : Sys).jobs q = some j →
          x.jobs q = some j := by
        intro q j hj
        rw [finish_jobs] at hj
        exact (setJob_ended hj).2
      have hroles' : ({ x with engine := e } : Sys).Roles :=
        hroles.withEngine fun m hm => (hext.frozen m hm).1
      have hengine : ({ x with engine := e }.finish p ok : Sys).engine = e := finish_engine p ok
      have hextends : x.engine.Extends ({ x with engine := e }.finish p ok : Sys).engine K K' :=
        hengine.symm ▸ hext
      have hcovers : Covers ({ x with engine := e }.finish p ok : Sys).engine.liveRecords
          x.engine.liveRecords := hengine.symm ▸ hlive
      refine h.of_step hroles hextends hcovers (finish_recovered p ok) (fun q j hj m hm => ?_)
        (fun m j hj hstage => ?_) (fun m hm => ?_) (fun c b hb => Or.inl ?_) fun c b hb => Or.inl ?_
      · rw [proceed, hengine]
        exact hothers q j (hjobs q j hj) m hm
      · rw [Flushed, proceed, hengine]
        exact hpublished m j (hjobs _ j hj) hstage
      · cases p with
        | task m' =>
            have hm : Function.update x.ended m' (some ok) m = some true := hm
            by_cases hmm : m = m'
            · subst hmm
              rw [Function.update_self, Option.some.injEq] at hm
              subst hm
              have hkind : kind = .flush m := hroles.task m _ hjob
              subst hkind
              exact Or.inr (hmono (h.flushed_of_off hjob heffect) hjobSound.placed)
            · rw [Function.update_of_ne hmm] at hm
              exact Or.inl hm
        | call c =>
            obtain ⟨began, -, heq⟩ := finish_call hroles' hjob ok
            rw [proceed, heq] at hm
            exact Or.inl hm
      · exact hroles'.carried_of_finish hjob (fun began ok _ => Call.began_returned began ok) hb
      · exact hroles'.carried_of_finish hjob (fun began ok _ => Call.passed_returned began ok) hb

/-- Before a `flush_active` everything inserted is recovered or in memgraphs. -/
theorem Sound.began_of_inserted (h : x.Sound K)
    (hactive : ∀ r, ¬ (x.engine.heap x.engine.active).Stores r) :
    ∀ r ∈ x.inserted, r ∈ x.recovered ∨ ∃ m, x.engine.Frozen m ∧ (x.engine.heap m).Stores r := by
  intro r hr
  refine (h.ledger.complete r hr).imp_right ?_
  rintro ⟨m, hm, hstores⟩
  refine ⟨m, ⟨hm, ?_⟩, hstores⟩
  rintro rfl
  exact hactive r hstores

/-- What a call that moves on has begun with, it had begun with before; a `flush_active` that finds the
active memgraph empty begins with everything inserted. -/
theorem Turn.began {a : Action} (hturn : Turn x a c call) (hsound : x.Sound K) {b : List EdgeRecord}
    (hb : call.began = some b) : (x.calls c).began = some b ∨
      ∀ r ∈ b, r ∈ x.recovered ∨ ∃ m, x.engine.Frozen m ∧ (x.engine.heap m).Stores r := by
  cases hturn with
  | flushActive hcall hempty =>
      cases hb
      refine Or.inr (hsound.began_of_inserted ?_)
      exact (MemGraph.isEmpty_iff (hsound.keeps.memgraph _)).mp hempty
  | waitForFlushes hcall => cases hb
  | compact hcall => cases hb
  | select hcall hnone => exact Or.inl (hcall.symm ▸ hb)
  | waited hcall hnone => cases hb
  | flushed hcall hnone =>
      split at hb
      · exact Or.inl (hcall.symm ▸ hb)
      · exact Or.inl (hcall.symm ▸ hb)
  | awaited hcall hended =>
      split at hb
      · exact Or.inl (hcall.symm ▸ hb)
      · cases hb
  | @nothing c request began hcall hnone =>
      exact Or.inl (hcall.symm ▸ Call.began_returned began true hb)
  | done hcall => cases hb

/-- A call passes the wait when the flushes of the memgraphs it is about have ended. -/
theorem Turn.passed {a : Action} (hturn : Turn x a c call) (h : x.Durable) (hP : x.HandlesEnded a)
    {b : List EdgeRecord} (hb : call.passed = some b) :
    (x.calls c).passed = some b ∨ Covers x.engine.liveRecords {r | r ∈ b} := by
  cases hturn with
  | flushActive hcall hempty => cases hb
  | waitForFlushes hcall => cases hb
  | compact hcall => cases hb
  | select hcall hnone => exact Or.inl (hcall.symm ▸ hb)
  | waited hcall hnone => cases hb
  | @flushed c began hcall hnone =>
      -- the flushes of all the memgraphs in question have ended
      have hb : began = b := by
        split at hb
        · exact Option.some.inj hb
        · exact Option.some.inj hb
      subst hb
      refine Or.inr fun r hr => ?_
      rcases h.began c began (hcall.symm ▸ rfl) r hr with hrecovered | ⟨m, hfrozen, hstores⟩
      · exact h.recovered r hrecovered
      · exact h.ended m (hP c began rfl hcall hnone m hfrozen ⟨r, hr, hstores⟩) r hstores
  | @awaited c memgraph request began ok hcall hended =>
      split at hb
      · refine Or.inl (hcall.symm ▸ ?_)
        cases request with
        | none => cases hb
        | some request => exact hb
      · cases hb
  | @nothing c request began hcall hnone =>
      exact Or.inl (hcall.symm ▸ Call.passed_returned began true hb)
  | done hcall => cases hb

/-- **Step lemma.** -/
theorem Durable.step {a : Action} (h : x.Durable) (hsound : x.Sound K) (hroles : x.Roles)
    (hbooks : x.Books) (hP : x.HandlesEnded a) (hs : Step x a y)
    (hext : x.engine.Extends y.engine K K') : y.Durable := by
  have hold : ∀ p j, x.jobs p = some j → x.jobs p = some j ∨ j.stage = .load := fun p j => Or.inl
  have hbegin : ∀ {p kind} q j, (x.setJob p (some { kind := kind, stage := .load })).jobs q = some j →
      x.jobs q = some j ∨ j.stage = .load := by
    rintro p kind q j hj
    rcases setJob_begun hj with hold | rfl
    · exact Or.inl hold
    · exact Or.inr rfl
  cases hs with
  | @job p fault kind stage progress e hjob heffect =>
      have hextends : x.engine.Extends e K K' := by
        rwa [proceed_engine] at hext
      exact h.job hsound hroles hbooks hjob heffect hextends
  | turn hturn =>
      exact h.of_call hroles hext rfl rfl rfl hold rfl rfl (fun b hb => hturn.began hsound hb)
        fun b hb => hturn.passed h hP hb
  | draw hcall hoverflow hts ha =>
      exact h.of_call hroles hext rfl rfl rfl hold rfl rfl (fun b hb => by cases hb)
        fun b hb => by cases hb
  | write hcall hlock =>
      exact h.of_call hroles hext rfl rfl rfl hold rfl rfl (fun b hb => by cases hb)
        fun b hb => by cases hb
  | writeFull hcall hlock =>
      exact h.of_call hroles hext rfl rfl rfl hold rfl rfl (fun b hb => by cases hb)
        fun b hb => by cases hb
  | @flushActive c hcall hfull =>
      refine h.of_call hroles hext rfl rfl rfl hold rfl rfl (fun b hb => ?_) fun b hb => by cases hb
      cases hb
      refine Or.inr fun r hr => (hsound.ledger.complete r hr).imp_right ?_
      rintro ⟨m, hm, hstores⟩
      refine ⟨m, ⟨hm.trans (Nat.lt_succ_self _), hm.ne⟩, ?_⟩
      have hheap : x.engine.withNewActive.heap m = x.engine.heap m := Function.update_of_ne hm.ne _ _
      exact hheap.symm ▸ hstores
  | @spawn c memgraph call hcall hpushing hwrite hbegan =>
      refine h.of_call hroles hext rfl rfl rfl hbegin rfl rfl (fun b hb => ?_) fun b hb => ?_
      · cases hx : x.calls c with
        | spawningWrite m src =>
            rw [hx] at hcall
            cases hcall
            rw [hwrite src hx] at hb
            cases hb
        | spawningFlush m began =>
            rw [hx] at hcall
            cases hcall
            rw [hbegan began hx] at hb
            exact Or.inl hb
        | _ =>
            rw [hx] at hcall
            cases hcall
      · cases call with
        | pushingWrite m src => cases hb
        | pushingFlush m began => cases hb
        | _ => cases hpushing
  | pushWrite hcall =>
      exact h.of_call hroles hext rfl rfl rfl hold rfl rfl (fun b hb => by cases hb)
        fun b hb => by cases hb
  | pushFlush hcall =>
      exact h.of_call hroles hext rfl rfl rfl hold rfl rfl (fun b hb => Or.inl (hcall.symm ▸ hb))
        fun b hb => by cases hb
  | @pop c memgraph request began hcall hlast =>
      refine h.of_call hroles hext rfl rfl rfl hold rfl rfl (fun b hb => Or.inl (hcall.symm ▸ hb))
        fun b hb => Or.inl (hcall.symm ▸ ?_)
      cases request with
      | none => cases hb
      | some request => exact hb
  | select hcall hkind =>
      exact h.of_call hroles hext rfl rfl rfl hbegin rfl rfl (fun b hb => Or.inl (hcall.symm ▸ hb))
        fun b hb => Or.inl (hcall.symm ▸ hb)
  | getNeighbors hcall hlock =>
      exact h.of_call hroles hext rfl rfl rfl hold rfl rfl (fun b hb => by cases hb)
        fun b hb => by cases hb
  | read hcall hcache =>
      exact h.of_call hroles hext rfl rfl rfl hold rfl rfl (fun b hb => by cases hb)
        fun b hb => by cases hb

/-! ## Every run -/

/-- What was recovered is in live files. -/
theorem durable_start (h : e.Fresh) : (start e).Durable where
  committed p j hj := by cases hj
  published m j hj := by cases hj
  ended m hm := by cases hm
  recovered r hr := by
    obtain ⟨m, hm, hr⟩ := mem_flatMap_segmentRecords.mp hr
    exact ⟨r, ⟨m, (h.live_iff m).mpr hm, hr⟩, rfl, le_rfl⟩
  began c b hb := by cases hb
  passed c b hb := by cases hb

/-- **`flush_active` is a barrier** in a run that meets the condition: when it returns `Ok`, every
record that was inserted before the call is in a file that is live in the manifest, or a newer record
of the same edge is. -/
theorem durable_of_reaches (hopened : Opened e) (hrun : Reaches step HandlesEnded (start e) x)
    {began : List EdgeRecord} (hcall : x.calls c = .flushed began) :
    ∀ r ∈ began, ∃ m ∈ x.engine.liveFiles, ∃ r' ∈ segmentRecords x.engine.files m,
      r'.key = r.key ∧ r.ts ≤ r'.ts := by
  obtain ⟨K, -, -, -, hdurable⟩ := invariant_of_reaches (I := fun x _ => x.Books ∧ x.Durable)
    hopened hrun (fun hfresh => ⟨books_start hfresh, durable_start hfresh⟩) <| by
      rintro x K a y K' hsound hroles hP hs - - hext ⟨hbooks, hdurable⟩
      exact ⟨hbooks.step hsound hs, hdurable.step hsound hroles hbooks hP hs hext⟩
  intro r hr
  obtain ⟨r', ⟨m, hm, hr'⟩, hrel⟩ := hdurable.passed c began (by rw [hcall]; rfl) r hr
  exact ⟨m, hm, r', hr', hrel⟩

/-- The memgraphs rotated out so far have been flushed. -/
def flushesEnded (x : Sys) : Action → Bool
  | .pop _ => x.engine.flushTasks ≠ [] ∨
      ∀ m < x.engine.nextMemGraphId, m ≠ x.engine.active → x.ended m = some true
  | _ => true

theorem handlesEnded_of_flushesEnded {a : Action} (h : x.flushesEnded a = true) :
    x.HandlesEnded a := by
  rintro c began rfl hcall hnone m hfrozen -
  have hor : x.engine.flushTasks ≠ [] ∨
      ∀ m < x.engine.nextMemGraphId, m ≠ x.engine.active → x.ended m = some true := of_decide_eq_true h
  rcases hor with hne | hended
  · exact absurd hnone hne
  · exact hended m hfrozen.1 hfrozen.2

/-- A `flush_active` that waits for its flush. -/
def flushAndWait : List Action :=
  [.insertEdge 0 1 2 1, .write 0, .flushActive 0, .spawn 0, .push 0] ++
    List.replicate 10 (.job (.task 0) none) ++ [.pop 0, .await 0, .pop 0]

theorem durable_of_reaches_flushAndWait :
    ∃ e x began, newEngine = some e ∧
      run step (fun x a => x.flushesEnded a = true) (start e) flushAndWait = some x ∧
      x.calls 0 = .flushed began ∧
      ∀ r ∈ began, ∃ m ∈ x.engine.liveFiles, ∃ r' ∈ segmentRecords x.engine.files m,
        r'.key = r.key ∧ r.ts ≤ r'.ts := by
  have hruns : newEngine.any fun e =>
      (run step (fun x a => x.flushesEnded a = true) (start e) flushAndWait).any fun x =>
        (x.calls 0).hasFlushed := by decide +kernel
  obtain ⟨e, he, hrun⟩ := (Option.any_eq_true _ _).mp hruns
  obtain ⟨x, hx, hflushed⟩ := (Option.any_eq_true _ _).mp hrun
  obtain ⟨began, hcall⟩ := Call.hasFlushed_iff.mp hflushed
  exact ⟨e, x, began, he, hx, hcall, durable_of_reaches (opened_newEngine he)
    ((reaches_of_run hx).imp fun _ _ h => handlesEnded_of_flushesEnded h) hcall⟩

/-- A call takes the handle of a flush and waits for it; another `flush_active` finds the list empty. -/
def takenHandle : List Action :=
  [.insertEdge 0 1 2 1, .write 0, .flushActive 0, .spawn 0, .push 0, .pop 0, .flushActive 1, .pop 1]

/-- **A `flush_active` returns `Ok` while the flush of what was inserted before has not begun.** -/
theorem barrier_passed :
    ∃ e x began, Opened e ∧ run step (fun _ _ => True) (start e) takenHandle = some x ∧
      x.calls 1 = .flushed began ∧ began ≠ [] ∧ x.engine.liveFiles = [] := by
  have hruns : newEngine.any fun e =>
      (run step (fun _ _ => True) (start e) takenHandle).any fun x =>
        (x.calls 1).hasFlushed && ((x.calls 1).began != some []) &&
          decide (x.engine.liveFiles = []) := by decide +kernel
  obtain ⟨e, he, hrun⟩ := (Option.any_eq_true _ _).mp hruns
  obtain ⟨x, hx, hlost⟩ := (Option.any_eq_true _ _).mp hrun
  rw [Bool.and_eq_true, Bool.and_eq_true] at hlost
  obtain ⟨began, hcall⟩ := Call.hasFlushed_iff.mp hlost.1.1
  refine ⟨e, x, began, opened_newEngine he, hx, hcall, ?_, of_decide_eq_true hlost.2⟩
  rintro rfl
  have hne := hlost.1.2
  rw [hcall] at hne
  exact absurd hne (by decide)

end Sys

end LsmGraph
