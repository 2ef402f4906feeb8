import LsmGraph.Concurrent.Reached

/-! # Files that are not in a version yet

The files a job has written are unknown to everybody else until it publishes: no version has them and
no compaction reads them (`Sys.Books`). Within a version no file occurs twice. -/

namespace LsmGraph

open KeyedSort ErrorState Transition

variable {e e' : Engine} {K K' : Set CsrSegmentMeta} {v : Version} {kind : JobKind}
  {stage stage' : Stage} {m : CsrSegmentMeta}

/-! ## Versions without repetitions -/

/-- No level of the version lists a file twice. -/
def Version.NoRepeat (v : Version) : Prop := ∀ i, (v.level i).Nodup

theorem nodup_sortLevel {level : List CsrSegmentMeta} (h : level.Nodup) : (sortLevel level).Nodup :=
  (perm_sortByKey levelKey level).nodup_iff.mpr h

/-- What a job publishes repeats no file, as long as its outputs are new to the version it pinned. -/
theorem Version.NoRepeat.next (h : v.NoRepeat) {outputs : List CsrSegmentMeta} (hnodup : outputs.Nodup)
    (hnew : ∀ m ∈ outputs, m ∉ v.files) : (kind.next v outputs).NoRepeat := by
  have hlevel : ∀ i, ∀ m ∈ v.level i, m ∉ outputs := fun i m hm hout =>
    hnew m hout (Version.mem_files.mpr ⟨i, hm⟩)
  cases kind with
  | flush memgraph =>
      intro i
      rw [JobKind.next]
      cases i with
      | zero =>
          rw [Version.level_zero_afterFlush]
          exact nodup_sortLevel (List.nodup_append'.mpr ⟨h 0, hnodup, hlevel 0⟩)
      | succ i =>
          rw [Version.level_succ_afterFlush]
          exact h (i + 1)
  | full l0Files l1Files =>
      intro i
      rw [JobKind.next]
      rcases i with _ | _ | i
      · rw [Version.level_zero_afterFullCompaction]
        exact List.nodup_nil
      · rw [Version.level_one_afterFullCompaction]
        exact nodup_sortLevel hnodup
      · rw [Version.level_add_two_afterFullCompaction]
        exact h (i + 2)
  | target selectedL0 selectedL1 =>
      intro i
      rw [JobKind.next]
      rcases i with _ | _ | i
      · rw [Version.level_zero_afterTargetCompaction]
        exact nodup_sortLevel ((h 0).filter _)
      · rw [Version.level_one_afterTargetCompaction]
        refine nodup_sortLevel (List.nodup_append'.mpr ⟨(h 1).filter _, hnodup, ?_⟩)
        exact fun m hm => hlevel 1 m (List.mem_of_mem_filter hm)
      · rw [Version.level_add_two_afterTargetCompaction]
        exact h (i + 2)

/-- The files of a published version are those of the pinned one and the outputs. -/
theorem Version.mem_of_mem_next {outputs : List CsrSegmentMeta}
    (h : m ∈ (kind.next v outputs).files) : m ∈ v.files ∨ m ∈ outputs := by
  cases kind with
  | flush memgraph => exact Version.mem_files_afterFlush.mp h
  | full l0Files l1Files =>
      obtain ⟨i, hm⟩ := Version.mem_files.mp h
      rw [JobKind.next] at hm
      rcases i with _ | _ | i
      · rw [Version.level_zero_afterFullCompaction] at hm
        exact absurd hm List.not_mem_nil
      · rw [Version.level_one_afterFullCompaction, mem_sortLevel] at hm
        exact Or.inr hm
      · rw [Version.level_add_two_afterFullCompaction] at hm
        exact Or.inl (Version.mem_files.mpr ⟨i + 2, hm⟩)
  | target selectedL0 selectedL1 =>
      obtain ⟨i, hm⟩ := Version.mem_files.mp h
      rw [JobKind.next] at hm
      rcases i with _ | _ | i
      · rw [Version.level_zero_afterTargetCompaction, mem_sortLevel] at hm
        exact Or.inl (Version.mem_files.mpr ⟨0, List.mem_of_mem_filter hm⟩)
      · rw [Version.level_one_afterTargetCompaction, mem_sortLevel, List.mem_append] at hm
        exact hm.imp_left fun hm => Version.mem_files.mpr ⟨1, List.mem_of_mem_filter hm⟩
      · rw [Version.level_add_two_afterTargetCompaction] at hm
        exact Or.inl (Version.mem_files.mpr ⟨i + 2, hm⟩)

/-- **The files of a published version**, if a full compaction has read all it takes away. -/
theorem Job.Sound.mem_files_next {old : Version} {outputs : List CsrSegmentMeta}
    (hjob : Job.Sound e K kind (.publish old outputs)) (hkeeps : e.Keeps K)
    (hread : ∀ l0Files l1Files, kind = .full l0Files l1Files →
      ∀ m ∈ old.level 0 ++ old.level 1, m ∈ l0Files ++ l1Files) :
    m ∈ (kind.next old outputs).files ↔ m ∈ old.files ∧ m ∉ kind.inputs ∨ m ∈ outputs := by
  have hold : old.Placed K := hjob.version old rfl
  cases kind with
  | flush memgraph =>
      refine Version.mem_files_afterFlush.trans (or_congr_left ?_)
      exact (and_iff_left List.not_mem_nil).symm
  | full l0Files l1Files =>
      refine hold.mem_files_afterFullCompaction.trans (or_congr_left (and_congr_right fun hm => ?_))
      refine not_congr ⟨hread l0Files l1Files rfl m, fun hinput => ?_⟩
      obtain ⟨-, h0, h1⟩ := hjob.placed
      rw [List.mem_append, hold.mem_level_iff, hold.mem_level_iff]
      rcases List.mem_append.mp hinput with hinput | hinput
      · exact Or.inl ⟨hm, congrArg UInt8.toNat (h0 m hinput).2⟩
      · exact Or.inr ⟨hm, congrArg UInt8.toNat (h1 m hinput).2⟩
  | target selectedL0 selectedL1 =>
      obtain ⟨-, h0, h1⟩ := hjob.placed
      exact hold.mem_files_afterTargetCompaction hkeeps.injOn h0 h1

/-! ## The files a job has written -/

/-- A step of a job keeps the files it has written and at most adds the one whose id it has reserved,
until it has published them. -/
theorem JobKind.Effect.written {fault : Option Bool} (h : kind.Effect fault e stage (.on stage') e') :
    stage'.written = [] ∨ stage'.written = stage.written ∨
      ∃ m, stage.reserved = some m.fileId ∧ stage'.written = stage.written ++ [m] := by
  cases h with
  | load h hne => exact Or.inl rfl
  | created => exact Or.inr (Or.inl rfl)
  | alloc => exact Or.inr (Or.inl rfl)
  | write hfault => exact Or.inr (Or.inr ⟨_, rfl, rfl⟩)
  | commit hfault => exact Or.inr (Or.inl rfl)
  | delete hm hfault => exact Or.inr (Or.inl rfl)
  | deleted hm => exact Or.inr (Or.inl rfl)
  | pin => exact Or.inr (Or.inl rfl)
  | publish => exact Or.inl rfl
  | rebuild => exact Or.inl rfl

/-- A version a job holds after a step it held before, or it has just pinned the current one. -/
theorem JobKind.Effect.version {fault : Option Bool} (h : kind.Effect fault e stage (.on stage') e')
    (hv : stage'.version = some v) : v = e.current := by
  cases h with
  | pin =>
      cases hv
      rfl
  | rebuild =>
      cases hv
      rfl
  | _ => cases hv

namespace Sys

variable {x y : Sys} {c : CallId} {p : Party}

/-- The files the job of `p` has written and not published. -/
def written (x : Sys) (p : Party) : List CsrSegmentMeta :=
  match x.jobs p with
  | some j => j.stage.written
  | none => []

/-- The files of the current version, of the pinned ones, and of the compactions. -/
def Seen (x : Sys) : Set CsrSegmentMeta :=
  {m | m ∈ x.engine.current.files ∨
    ∃ p j, x.jobs p = some j ∧ (m ∈ j.kind.inputs ∨ ∃ v, j.stage.version = some v ∧ m ∈ v.files)}

/-- **Files that were not published are unknown** to everybody but the job that wrote them. -/
structure Books (x : Sys) : Prop where
  noRepeat : x.engine.current.NoRepeat
  pinned : ∀ p j v, x.jobs p = some j → j.stage.version = some v → v.NoRepeat
  nodup : ∀ p, (x.written p).Nodup
  unseen : ∀ p, ∀ m ∈ x.written p, m ∉ x.Seen
  apart : ∀ p q, p ≠ q → ∀ m ∈ x.written p, m ∉ x.written q

theorem Sound.written_mem (h : x.Sound K) (hm : m ∈ x.written p) : m ∈ K := by
  unfold written at hm
  cases hj : x.jobs p with
  | none =>
      rw [hj] at hm
      exact absurd hm List.not_mem_nil
  | some j =>
      rw [hj] at hm
      exact ((h.job p j hj).written m hm).1

theorem Sound.seen_mem (h : x.Sound K) (hm : m ∈ x.Seen) : m ∈ K := by
  rcases hm with hm | ⟨p, j, hj, hm | ⟨v, hv, hm⟩⟩
  · exact h.keeps.placed.mem hm
  · exact (h.job p j hj).placed.inputs_mem m hm
  · exact ((h.job p j hj).version v hv).mem hm

/-- **One step.** Whoever is at `p` keeps the files it has written, with at most a new one, and nobody
sees more; or it has none any more, and at most these are seen now. -/
theorem Books.of_step (h : x.Books) (hsound : x.Sound K) (p : Party)
    (hothers : ∀ q, q ≠ p → y.written q = x.written q)
    (hp : y.written p = [] ∧ (∀ m ∈ y.Seen, m ∈ x.Seen ∨ m ∈ x.written p) ∨
      y.Seen ⊆ x.Seen ∧ (y.written p = x.written p ∨
        ∃ m, m ∉ K ∧ y.written p = x.written p ++ [m]))
    (hnoRepeat : y.engine.current.NoRepeat)
    (hpinned : ∀ p j v, y.jobs p = some j → j.stage.version = some v → v.NoRepeat) : y.Books := by
  -- a file on a list was there before, or the step of `p` has just made it
  have hmem : ∀ q, ∀ m ∈ y.written q, m ∈ x.written q ∨ q = p ∧ m ∉ K := by
    intro q m hm
    by_cases hq : q = p
    · subst hq
      rcases hp with ⟨hnil, -⟩ | ⟨-, hsame | ⟨m', hm', happend⟩⟩
      · rw [hnil] at hm
        exact absurd hm List.not_mem_nil
      · exact Or.inl (hsame ▸ hm)
      · rw [happend] at hm
        rcases List.mem_append.mp hm with hm | hm
        · exact Or.inl hm
        · rw [List.mem_singleton.mp hm]
          exact Or.inr ⟨rfl, hm'⟩
    · exact Or.inl (hothers q hq ▸ hm)
  refine ⟨hnoRepeat, hpinned, fun q => ?_, fun q m hm hseen => ?_, fun q q' hqq m hm hm' => ?_⟩
  · by_cases hq : q = p
    · subst hq
      rcases hp with ⟨hnil, -⟩ | ⟨-, hsame | ⟨m', hm', happend⟩⟩
      · rw [hnil]
        exact List.nodup_nil
      · rw [hsame]
        exact h.nodup q
      · rw [happend]
        refine List.nodup_append'.mpr ⟨h.nodup q, List.nodup_singleton m', fun m hm hsingle => ?_⟩
        exact hm' (List.mem_singleton.mp hsingle ▸ hsound.written_mem hm)
    · rw [hothers q hq]
      exact h.nodup q
  · -- a published file left the list of `p`, which is empty now
    have hold : m ∈ x.Seen ∨ q ≠ p ∧ m ∈ x.written p := by
      rcases hp with ⟨hnil, hsub⟩ | ⟨hsub, -⟩
      · refine (hsub m hseen).imp_right fun hwritten => ⟨?_, hwritten⟩
        rintro rfl
        rw [hnil] at hm
        exact absurd hm List.not_mem_nil
      · exact Or.inl (hsub hseen)
    rcases hmem q m hm with hq | ⟨hq, hnew⟩
    · rcases hold with hold | ⟨hne, hold⟩
      · exact h.unseen q m hq hold
      · exact h.apart q p hne m hq hold
    · rcases hold with hold | ⟨hne, -⟩
      · exact hnew (hsound.seen_mem hold)
      · exact hne hq
  · rcases hmem q m hm with hq | ⟨hqp, hnew⟩
    · rcases hmem q' m hm' with hq' | ⟨-, hnew⟩
      · exact h.apart q q' hqq m hq hq'
      · exact hnew (hsound.written_mem hq)
    · rcases hmem q' m hm' with hq' | ⟨hqp', -⟩
      · exact hnew (hsound.written_mem hq')
      · exact hqq (hqp.trans hqp'.symm)

theorem written_of_job {j : Job} (hj : x.jobs p = some j) : x.written p = j.stage.written := by
  rw [written, hj]

theorem written_setJob_of_ne {q : Party} {j : Option Job} (hq : q ≠ p) :
    (x.setJob p j).written q = x.written q := by
  rw [written, written, setJob_of_ne hq]

/-- A step that leaves the jobs and the files of the version alone. -/
theorem Books.quiet (h : x.Books) (hsound : x.Sound K) (hjobs : y.jobs = x.jobs)
    (hlevel : ∀ i, y.engine.current.level i = x.engine.current.level i) : y.Books := by
  have hfiles : ∀ m, m ∈ y.engine.current.files ↔ m ∈ x.engine.current.files := by
    intro m
    simp only [Version.mem_files, hlevel]
  have hwritten : ∀ q, y.written q = x.written q := by
    intro q
    rw [written, written, hjobs]
  refine h.of_step hsound (.task 0) (fun q _ => hwritten q) (Or.inr ⟨?_, Or.inl (hwritten _)⟩) ?_ ?_
  · rintro m (hm | ⟨p, j, hj, hm⟩)
    · exact Or.inl ((hfiles m).mp hm)
    · exact Or.inr ⟨p, j, hjobs ▸ hj, hm⟩
  · intro i
    rw [hlevel]
    exact h.noRepeat i
  · rw [hjobs]
    exact h.pinned

/-- A job begins with files of the current version. -/
theorem Books.begin (h : x.Books) (hsound : x.Sound K)
    (hinputs : ∀ m ∈ kind.inputs, m ∈ x.engine.current.files)
    (hjobs : y.jobs = (x.setJob p (some { kind := kind, stage := .load })).jobs)
    (hcurrent : y.engine.current = x.engine.current) : y.Books := by
  have hcase : ∀ q j, y.jobs q = some j → j = { kind := kind, stage := .load } ∨ x.jobs q = some j := by
    intro q j hj
    rw [hjobs] at hj
    exact (setJob_begun hj).symm
  have hwritten : y.written p = [] := by
    rw [written, hjobs, setJob_self]
    rfl
  refine h.of_step hsound p (fun q hq => ?_) (Or.inl ⟨hwritten, fun m hm => Or.inl ?_⟩) ?_ ?_
  · have hsame : (x.setJob p (some { kind := kind, stage := .load })).written q = x.written q :=
      written_setJob_of_ne hq
    rw [← hsame, written, written, hjobs]
  · rcases hm with hm | ⟨q, j, hj, hm⟩
    · exact Or.inl (hcurrent ▸ hm)
    · rcases hcase q j hj with rfl | hold
      · rcases hm with hm | ⟨v, hv, -⟩
        · exact Or.inl (hinputs m hm)
        · cases hv
      · exact Or.inr ⟨q, j, hold, hm⟩
  · rw [hcurrent]
    exact h.noRepeat
  · intro q j v hj hv
    rcases hcase q j hj with rfl | hold
    · cases hv
    · exact h.pinned q j v hold hv

/-- **The step of a job.** -/
theorem Books.job {fault : Option Bool} {progress : Progress} (h : x.Books) (hsound : x.Sound K)
    (hjob : x.jobs p = some { kind := kind, stage := stage })
    (heffect : kind.Effect fault x.engine stage progress e) :
    ({ x with engine := e }.proceed p kind progress).Books := by
  have hjobSound := hsound.job p _ hjob
  have hcurrent : e.current.NoRepeat ∧ ∀ m ∈ e.current.files, m ∈ x.engine.current.files ∨
      ∃ old outputs, stage = .publish old outputs ∧ progress = .on .rebuild ∧
        (m ∈ old.files ∨ m ∈ outputs) := by
    rcases effect_current heffect with heq | ⟨old, outputs, rfl, hprogress, rfl⟩
    · rw [heq]
      exact ⟨h.noRepeat, fun m hm => Or.inl hm⟩
    · have hwritten : x.written p = outputs := written_of_job hjob
      have hnodup := h.nodup p
      rw [hwritten] at hnodup
      refine ⟨(h.pinned p _ old hjob rfl).next hnodup fun m hm hold => ?_, fun m hm => Or.inr ?_⟩
      · exact h.unseen p m (hwritten ▸ hm) (Or.inr ⟨p, _, hjob, Or.inr ⟨old, rfl, hold⟩⟩)
      · exact ⟨old, outputs, rfl, hprogress, Version.mem_of_mem_next hm⟩
  have hothers : ∀ j, ∀ q ≠ p, (({ x with engine := e } : Sys).setJob p j).written q = x.written q :=
    fun j q hq => written_setJob_of_ne hq
  cases progress with
  | on stage' =>
      have hcase : ∀ q j, ({ x with engine := e }.setJob p
          (some { kind := kind, stage := stage' }) : Sys).jobs q = some j →
            q = p ∧ j = { kind := kind, stage := stage' } ∨ x.jobs q = some j := by
        intro q j hj
        rcases setJob_cases hj with ⟨hq, heq⟩ | ⟨-, hold⟩
        · cases heq
          exact Or.inl ⟨hq, rfl⟩
        · exact Or.inr hold
      have hself : ({ x with engine := e }.setJob p
          (some { kind := kind, stage := stage' }) : Sys).written p = stage'.written :=
        written_of_job setJob_self
      have hwritten : x.written p = stage.written := written_of_job hjob
      -- what is seen now was seen before, or the job has just published it
      have hseen : ∀ m ∈ ({ x with engine := e }.setJob p
          (some { kind := kind, stage := stage' }) : Sys).Seen,
            m ∈ x.Seen ∨ stage'.written = [] ∧ m ∈ x.written p := by
        have hnow : ∀ m ∈ e.current.files, m ∈ x.Seen ∨ stage'.written = [] ∧ m ∈ x.written p := by
          intro m hm
          rcases hcurrent.2 m hm with hm | ⟨old, outputs, rfl, hprogress, hm | hm⟩
          · exact Or.inl (Or.inl hm)
          · exact Or.inl (Or.inr ⟨p, _, hjob, Or.inr ⟨old, rfl, hm⟩⟩)
          · cases hprogress
            exact Or.inr ⟨rfl, hwritten ▸ hm⟩
        rintro m (hm | ⟨q, j, hj, hm⟩)
        · exact hnow m hm
        · rcases hcase q j hj with ⟨rfl, rfl⟩ | hold
          · rcases hm with hm | ⟨v, hv, hm⟩
            · exact Or.inl (Or.inr ⟨q, _, hjob, Or.inl hm⟩)
            · rw [heffect.version hv] at hm
              exact Or.inl (Or.inl hm)
          · exact Or.inl (Or.inr ⟨q, j, hold, hm⟩)
      refine h.of_step hsound p (hothers _) ?_ hcurrent.1 fun q j v hj hv => ?_
      · rcases heffect.written with hnil | hkept | ⟨m, hreserved, happend⟩
        · exact Or.inl ⟨hself.trans hnil, fun m hm => (hseen m hm).imp_right And.right⟩
        · by_cases hnil : stage'.written = []
          · exact Or.inl ⟨hself.trans hnil, fun m hm => (hseen m hm).imp_right And.right⟩
          · exact Or.inr ⟨fun m hm => (hseen m hm).resolve_right fun hr => hnil hr.1,
              Or.inl (hself.trans (hkept.trans hwritten.symm))⟩
        · refine Or.inr ⟨fun m' hm' => (hseen m' hm').resolve_right fun hr => ?_, Or.inr ⟨m, ?_, ?_⟩⟩
          · rw [happend] at hr
            exact absurd hr.1 (List.append_ne_nil_of_right_ne_nil _ (List.cons_ne_nil m []))
          · exact fun hm => (hjobSound.reserved m.fileId hreserved).2 m hm rfl
          · exact hself.trans (by rw [happend, hwritten])
      · rcases hcase q j hj with ⟨rfl, rfl⟩ | hold
        · rw [heffect.version hv]
          exact h.noRepeat
        · exact h.pinned q j v hold hv
  | off ok =>
      have hjobs : ({ x with engine := e }.finish p ok : Sys).jobs =
          (({ x with engine := e } : Sys).setJob p none).jobs := finish_jobs p ok
      have hcase : ∀ q j, ({ x with engine := e }.finish p ok : Sys).jobs q = some j →
          x.jobs q = some j := by
        intro q j hj
        rw [hjobs] at hj
        exact (setJob_ended hj).2
      have hengine : ({ x with engine := e }.finish p ok : Sys).engine = e := finish_engine p ok
      have hnow : ∀ m ∈ e.current.files, m ∈ x.engine.current.files := by
        intro m hm
        rcases hcurrent.2 m hm with hm | ⟨_, _, _, hprogress, _⟩
        · exact hm
        · cases hprogress
      refine h.of_step hsound p (fun q hq => ?_) (Or.inl ⟨?_, fun m hm => Or.inl ?_⟩) ?_ ?_
      · rw [proceed, ← hothers none q hq, written, written, hjobs]
      · rw [proceed, written, hjobs, setJob_self]
      · rcases hm with hm | ⟨q, j, hj, hm⟩
        · rw [proceed, hengine] at hm
          exact Or.inl (hnow m hm)
        · exact Or.inr ⟨q, j, hcase q j hj, hm⟩
      · rw [proceed, hengine]
        exact hcurrent.1
      · exact fun q j v hj hv => h.pinned q j v (hcase q j hj) hv

/-- **Step lemma.** -/
theorem Books.step {a : Action} (h : x.Books) (hsound : x.Sound K) (hs : Step x a y) : y.Books := by
  cases hs with
  | job hjob heffect => exact h.job hsound hjob heffect
  | spawn hcall hpushing hwrite hbegan =>
      exact h.begin hsound (fun m hm => absurd hm List.not_mem_nil) rfl rfl
  | select hcall hkind => exact h.begin hsound (selection_spec hkind).2 rfl rfl
  | _ => exact h.quiet hsound rfl fun _ => rfl

/-- A store that was just opened has no jobs. -/
theorem books_start (h : e.Fresh) : (start e).Books where
  noRepeat := h.nodup
  pinned := fun p j v hj => by cases hj
  nodup := fun _ => List.nodup_nil
  unseen := fun _ _ hm => absurd hm List.not_mem_nil
  apart := fun _ _ _ _ hm => absurd hm List.not_mem_nil

end Sys

end LsmGraph
