import LsmGraph.Session

/-! # Flushes that are stopped

A flush commits its segments one by one. When I/O fails at some point, the segments committed before
that point, and no others, are live after the store is opened again (`createFiles_fault`,
`openDir_stopped`). So a stopped flush is all or nothing on disk exactly if it was stopped before its
first commit took effect or after its last one did (`stopped_allOrNone_iff`), and with several segments
it need not be (`stopped_half`). -/

namespace LsmGraph

open ErrorState Transition CsrReader

/-- How many segments are committed by the time I/O fails: each takes a write and an append. -/
def IoFault.commits (fault : IoFault) : Nat :=
  fault.after / 2 + if fault.durable ∧ fault.after % 2 = 1 then 1 else 0

@[simp] theorem IoFault.commits_add_two (n : Nat) (durable : Bool) :
    (IoFault.mk (n + 2) durable).commits = (IoFault.mk n durable).commits + 1 := by
  simp only [IoFault.commits, Nat.add_mod_right]
  omega

namespace Engine

variable {e e' : Engine} {fault : IoFault} {m : MemGraphId}

/-! ## The prefix that is committed -/

theorem io_succ (effect : Engine → Engine) {n : Nat} {durable : Bool}
    (h : e.fault = some { after := n + 1, durable := durable }) :
    io effect e = .ok () (effect { e with fault := some { after := n, durable := durable } }) := by
  rw [io, h]

theorem io_zero (effect : Engine → Engine) {durable : Bool}
    (h : e.fault = some { after := 0, durable := durable }) :
    io effect e = .error .io (if durable then effect e else e) := by
  rw [io, h]

theorem writeSegment_succ (level : LevelId) (fileId : FileId) (edges : List EdgeRecord) {n : Nat}
    {durable : Bool} (h : e.fault = some { after := n + 1, durable := durable }) :
    writeSegment level fileId edges e = .ok (CsrWriter.writeSegment level fileId edges).2
      (withFile level fileId (CsrWriter.writeSegment level fileId edges).1
        { e with fault := some { after := n, durable := durable } }) := by
  rw [writeSegment]
  exact bind_of_ok (io_succ _ h)

theorem writeSegment_zero (level : LevelId) (fileId : FileId) (edges : List EdgeRecord)
    {durable : Bool} (h : e.fault = some { after := 0, durable := durable }) :
    writeSegment level fileId edges e = .error .io
      (if durable then withFile level fileId (CsrWriter.writeSegment level fileId edges).1 e
        else e) := by
  rw [writeSegment]
  exact bind_of_error (io_zero _ h)

/-- **One file under a fault** is committed at the cost of two operations, or not. -/
theorem createFile_fault (level : LevelId) {edges : List EdgeRecord} (hne : edges ≠ [])
    (h : e.fault = some fault) :
    (∃ x e', createFile level edges e = .ok x e' ∧ 2 ≤ fault.after ∧
        e'.fault = some { fault with after := fault.after - 2 } ∧ Creates e e' [x] ∧
        Stored e'.files x edges) ∨
      fault.after < 2 ∧ ∃ ms e', createFile level edges e = .error .io e' ∧ Creates e e' ms ∧
        List.Forall₂ (Stored e'.files) ms ([edges].take fault.commits) := by
  have hput := Creates.putFile_of_lt (e := e) level edges
  have hstored := Creates.stored_putFile (e := e) level hne
  obtain ⟨after, durable⟩ := fault
  have hnext : ({ e with nextFileId := e.nextFileId + 1 } : Engine).fault =
      some { after := after, durable := durable } := h
  rw [createFile, bind_of_ok (show allocFileId e = _ from rfl)]
  -- the fault hits the write of the file, the append of its record, or neither
  rcases after with _ | _ | n
  · refine Or.inr ⟨Nat.zero_lt_two, [], _, bind_of_error (writeSegment_zero _ _ _ hnext), ?_, ?_⟩
    · cases durable with
      | true => exact Creates.refl e _ (Nat.le_succ _) _ hput _
      | false => exact Creates.refl e _ (Nat.le_succ _) e.files (fun _ _ _ => rfl) _
    · simp [IoFault.commits]
  · refine Or.inr ⟨Nat.one_lt_two, ?_⟩
    rw [bind_of_ok (writeSegment_succ _ _ _ hnext), appendManifest]
    cases durable with
    | true =>
        refine ⟨_, _, bind_of_error (io_zero _ rfl), Creates.single hne _, ?_⟩
        exact List.Forall₂.cons hstored List.Forall₂.nil
    | false =>
        refine ⟨[], _, bind_of_error (io_zero _ rfl),
          Creates.refl e _ (Nat.le_succ _) _ hput _, ?_⟩
        simp [IoFault.commits]
  · refine Or.inl ⟨_, _, ?_, Nat.le_add_left 2 n, rfl, Creates.single hne _, hstored⟩
    rw [bind_of_ok (writeSegment_succ _ _ _ hnext), appendManifest, bind_of_ok (io_succ _ rfl)]
    rfl

/-- **Files created under a fault**: as many as the fault lets through are committed. -/
theorem createFiles_fault (level : LevelId) {segments : List (List EdgeRecord)}
    (hne : [] ∉ segments) (h : e.fault = some fault) :
    ∃ ms, Creates e (stateOf (createFiles level segments e)) ms ∧
      List.Forall₂ (Stored (stateOf (createFiles level segments e)).files) ms
        (segments.take fault.commits) := by
  induction segments generalizing e fault with
  | nil =>
      refine ⟨[], Creates.refl e _ le_rfl e.files (fun _ _ _ => rfl) e.fault, ?_⟩
      rw [List.take_nil]
      exact List.Forall₂.nil
  | cons edges segments ih =>
      obtain ⟨hedges, hsegments⟩ := not_or.mp (List.mem_cons.not.mp hne)
      rcases createFile_fault level (Ne.symm hedges) h with
        ⟨x, e₁, hrun, htwo, hfault, hcreates, hstored⟩ | ⟨hlt, ms, e₁, hrun, hcreates, hall⟩
      · obtain ⟨ms, hcreates', hall⟩ := ih hsegments hfault
        have hstate : stateOf (createFiles level (edges :: segments) e) =
            stateOf (createFiles level segments e₁) := by
          rw [createFiles, bind_of_ok hrun]
          cases hrest : createFiles level segments e₁ with
          | ok ms e₂ =>
              rw [bind_of_ok hrest, pure_apply]
              rfl
          | error err e₂ => rw [bind_of_error hrest, stateOf_error]
        have hcommits : fault.commits =
            ({ fault with after := fault.after - 2 } : IoFault).commits + 1 := by
          rw [← IoFault.commits_add_two, Nat.sub_add_cancel htwo]
        refine ⟨x :: ms, hstate ▸ hcreates.trans hcreates', ?_⟩
        rw [hstate, hcommits, List.take_succ_cons]
        exact List.Forall₂.cons (hcreates'.stored hstored
          (hcreates.fresh x (List.mem_singleton_self x)).2) hall
      · -- the fault falls into this segment: its file is live only if its record reached the log
        have hstate : stateOf (createFiles level (edges :: segments) e) = e₁ := by
          rw [createFiles, bind_of_error hrun, stateOf_error]
        have hone : fault.commits ≤ 1 := by
          rw [IoFault.commits]
          split <;> omega
        refine ⟨ms, hstate ▸ hcreates, ?_⟩
        rw [hstate]
        convert hall using 1
        cases hc : fault.commits with
        | zero => rfl
        | succ n =>
            have hn : n = 0 := by omega
            rw [hn]
            rfl

/-! ## The store after a stopped flush -/

theorem stateOf_rebuildIndex (e : Engine) :
    (stateOf (rebuildIndex e)).files = e.files ∧ (stateOf (rebuildIndex e)).manifest = e.manifest := by
  rw [rebuildIndex, bind_of_ok get_apply]
  cases hread : buildIndex e.files e.current e.metadataCache with
  | ok entries cache =>
      have hrun : withCache (fun files => buildIndex files e.current) e =
          .ok entries { e with metadataCache := cache } := by
        rw [withCache, hread]
      rw [bind_of_ok hrun]
      exact ⟨rfl, rfl⟩
  | error err cache =>
      have hrun : withCache (fun files => buildIndex files e.current) e =
          .error err { e with metadataCache := cache } := by
        rw [withCache, hread]
      rw [bind_of_error hrun]
      exact ⟨rfl, rfl⟩

/-- What a flush leaves on disk is what creating its files leaves there. -/
theorem stateOf_flushMemgraph (hne : (e.heap m).allEdgesSorted ≠ []) :
    (stateOf (flushMemgraph m e)).files = (stateOf (createFiles L0
        (buildL0FlushSegments e.config (e.heap m).allEdgesSorted) e)).files ∧
      (stateOf (flushMemgraph m e)).manifest = (stateOf (createFiles L0
        (buildL0FlushSegments e.config (e.heap m).allEdgesSorted) e)).manifest := by
  rw [flushMemgraph, bind_of_ok get_apply, if_neg hne]
  cases hrun : createFiles L0 (buildL0FlushSegments e.config (e.heap m).allEdgesSorted) e with
  | ok metas e₁ =>
      rw [bind_of_ok hrun, bind_of_ok get_apply, publish, bind_of_ok (modify_apply _)]
      exact stateOf_rebuildIndex _
  | error err e₁ =>
      rw [bind_of_error hrun]
      exact ⟨rfl, rfl⟩

/-- **Reopening after a stopped flush**: the records of the committed segments are live, in addition
to what was live before. -/
theorem openDir_stopped (h : e.WF) (hm : m ∈ e.running) (hfault : e.fault = some fault)
    (config : LsmGraphConfig) :
    ∃ e', openDir config (stateOf (flushMemgraph m e)).files
        (stateOf (flushMemgraph m e)).manifest = .ok () e' ∧
      ∀ r, r ∈ e'.liveRecords ↔ r ∈ e.liveRecords ∨
        r ∈ ((buildL0FlushSegments e.config (e.heap m).allEdgesSorted).take fault.commits).flatten := by
  obtain ⟨r₀, hr₀⟩ := h.running_nonempty m hm
  have hne : (e.heap m).allEdgesSorted ≠ [] :=
    List.ne_nil_of_mem (MemGraph.mem_allEdgesSorted.mpr hr₀)
  obtain ⟨hfiles, hmanifest⟩ := stateOf_flushMemgraph hne
  obtain ⟨ms, hcreates, hall⟩ :=
    createFiles_fault L0 (nil_notMem_buildL0FlushSegments e.config hne) hfault
  rw [hfiles, hmanifest]
  have hintact := hcreates.intact h.intact
  obtain ⟨e', hrun, -, -, hlive, -⟩ := openDir_spec config _ _ fun x hx =>
    hintact.readable x (hintact.live_mem x hx)
  refine ⟨e', hrun, fun r => ?_⟩
  have hrecords := fileRecords_of_forall₂ hall
  rw [hlive]
  exact (hcreates.mem_liveRecords h.intact r).trans (or_congr_right (by rw [hrecords]; rfl))

/-- Of lists that share no element, and none of which is empty, a prefix has all elements or none iff
it is everything or empty. -/
theorem allOrNone_take_iff {segments : List (List EdgeRecord)} (hnodup : segments.flatten.Nodup)
    (hne : [] ∉ segments) (n : Nat) :
    (∀ r ∈ segments.flatten, r ∈ (segments.take n).flatten) ∨
        (∀ r ∈ segments.flatten, r ∉ (segments.take n).flatten) ↔
      n = 0 ∨ segments.length ≤ n := by
  have hsplit : segments.flatten = (segments.take n).flatten ++ (segments.drop n).flatten := by
    rw [← List.flatten_append, List.take_append_drop]
  have hinhabited : ∀ part : List (List EdgeRecord), part ≠ [] → part ⊆ segments →
      ∃ r, r ∈ part.flatten := by
    intro part hpart hsub
    obtain ⟨segment, hsegment⟩ := List.exists_mem_of_ne_nil part hpart
    have hne' : segment ≠ [] := fun heq => hne (heq ▸ hsub hsegment)
    obtain ⟨r, hr⟩ := List.exists_mem_of_ne_nil segment hne'
    exact ⟨r, List.mem_flatten.mpr ⟨segment, hsegment, hr⟩⟩
  constructor
  · rintro (hall | hnone)
    · -- nothing is left behind the prefix
      refine Or.inr (not_lt.mp fun hlt => ?_)
      obtain ⟨r, hr⟩ := hinhabited (segments.drop n)
        (fun hnil => absurd (List.drop_eq_nil_iff.mp hnil) hlt.not_ge) (List.drop_subset n segments)
      rw [hsplit] at hnodup hall
      exact (List.nodup_append.mp hnodup).2.2 r (hall r (List.mem_append_right _ hr)) r hr rfl
    · -- nothing is in the prefix
      by_contra hcontra
      obtain ⟨hn, hlt⟩ := not_or.mp hcontra
      obtain ⟨r, hr⟩ := hinhabited (segments.take n)
        (fun hnil => (List.take_eq_nil_iff.mp hnil).elim hn fun hnil =>
          hlt (by rw [hnil]; exact Nat.zero_le n)) (List.take_subset n segments)
      exact hnone r (hsplit ▸ List.mem_append_left _ hr) hr
  · rintro (rfl | hle)
    · exact Or.inr fun r _ => by simp
    · rw [List.take_of_length_le hle]
      exact Or.inl fun r hr => hr

/-- **When a stopped flush is all or nothing.** -/
theorem stopped_allOrNone_iff (h : e.WF) (hsep : e.Separated) (hm : m ∈ e.running)
    (hfault : e.fault = some fault) (config : LsmGraphConfig) :
    ∃ e', openDir config (stateOf (flushMemgraph m e)).files
        (stateOf (flushMemgraph m e)).manifest = .ok () e' ∧
      ((∀ r, (e.heap m).Stores r → r ∈ e'.liveRecords) ∨
          (∀ r, (e.heap m).Stores r → r ∉ e'.liveRecords) ↔
        fault.commits = 0 ∨
          (buildL0FlushSegments e.config (e.heap m).allEdgesSorted).length ≤ fault.commits) := by
  obtain ⟨e', hrun, hlive⟩ := openDir_stopped h hm hfault config
  obtain ⟨r₀, hr₀⟩ := h.running_nonempty m hm
  have hne : (e.heap m).allEdgesSorted ≠ [] :=
    List.ne_nil_of_mem (MemGraph.mem_allEdgesSorted.mpr hr₀)
  have hperm := perm_buildL0FlushSegments e.config (e.heap m).allEdgesSorted
  have hnodup : (buildL0FlushSegments e.config (e.heap m).allEdgesSorted).flatten.Nodup :=
    hperm.nodup_iff.mpr (MemGraph.nodup_allEdgesSorted (h.memgraph m))
  have hstores : ∀ r, (e.heap m).Stores r ↔
      r ∈ (buildL0FlushSegments e.config (e.heap m).allEdgesSorted).flatten := fun r =>
    (hperm.mem_iff.trans MemGraph.mem_allEdgesSorted).symm
  -- what is in memory was not live before
  have hnew : ∀ r, (e.heap m).Stores r → (r ∈ e'.liveRecords ↔
      r ∈ ((buildL0FlushSegments e.config (e.heap m).allEdgesSorted).take fault.commits).flatten) := by
    intro r hr
    rw [hlive]
    exact or_iff_right (hsep.notMem_live r ⟨m, (h.mem_memgraphs m).mpr (Or.inr hm), hr⟩)
  refine ⟨e', hrun, ?_⟩
  rw [← allOrNone_take_iff hnodup (nil_notMem_buildL0FlushSegments e.config hne)]
  refine or_congr (forall_congr' fun r => ?_) (forall_congr' fun r => ?_)
  · rw [← hstores]
    exact forall_congr' fun hr => hnew r hr
  · rw [← hstores]
    exact forall_congr' fun hr => (hnew r hr).not

end Engine

namespace Session

/-- **A flush is all or nothing exactly if it is not stopped between its commits.** Take any state a
session can get to, a memgraph that is being flushed there, and a point at which its flush is stopped;
after opening the directory, all of the memgraph's records are live or none is, if and only if the
flush was stopped before its first commit took effect or after its last one did. -/
theorem flushMemgraph_allOrNone_iff {config : LsmGraphConfig} {x₀ x : Session}
    (hcreate : create config = some x₀) (hrun : Reaches step (fun _ _ => True) x₀ x)
    {m : MemGraphId} (hm : m ∈ x.engine.running) (fault : IoFault) (config' : LsmGraphConfig) :
    ∃ e', Engine.openDir config' (stateOf (Engine.flushMemgraph m (x.withFault (some fault)))).files
        (stateOf (Engine.flushMemgraph m (x.withFault (some fault)))).manifest = .ok () e' ∧
      ((∀ r, (x.engine.heap m).Stores r → r ∈ e'.liveRecords) ∨
          (∀ r, (x.engine.heap m).Stores r → r ∉ e'.liveRecords) ↔
        fault.commits = 0 ∨ (buildL0FlushSegments x.engine.config
          (x.engine.heap m).allEdgesSorted).length ≤ fault.commits) := by
  obtain ⟨hwf, hsep, -⟩ := withFault_spec (inv_of_reaches hrun (inv_create hcreate)) (some fault)
  exact Engine.stopped_allOrNone_iff hwf hsep hm rfl config'

/-- A configuration that gives each edge type its own segment, with memgraphs of two edges. -/
def splittingConfig : LsmGraphConfig where
  memgraphCapacityBytes := 64
  minL0PartitionBytes := 0
  graphAwareL0 := true

theorem flushMemgraph_allOrNone_iff_small :
    ∃ x₀, create splittingConfig = some x₀ ∧
      ∃ x, run step (fun _ _ => True) x₀ [.insertEdge 1 2 1, .insertEdge 1 3 2] = some x ∧
        0 ∈ x.engine.running ∧
        ∃ e', Engine.openDir splittingConfig
            (stateOf (Engine.flushMemgraph 0
              (x.withFault (some { after := 3, durable := true })))).files
            (stateOf (Engine.flushMemgraph 0
              (x.withFault (some { after := 3, durable := true })))).manifest = .ok () e' ∧
          ((∀ r, (x.engine.heap 0).Stores r → r ∈ e'.liveRecords) ∨
              (∀ r, (x.engine.heap 0).Stores r → r ∉ e'.liveRecords) ↔
            (IoFault.mk 3 true).commits = 0 ∨ (buildL0FlushSegments x.engine.config
              (x.engine.heap 0).allEdgesSorted).length ≤ (IoFault.mk 3 true).commits) := by
  have hrun : ((create splittingConfig).bind fun x₀ =>
      (run step (fun _ _ => True) x₀ [.insertEdge 1 2 1, .insertEdge 1 3 2]).bind fun x =>
        if 0 ∈ x.engine.running then some x else none).isSome := by
    decide +kernel
  obtain ⟨y, hy⟩ := Option.isSome_iff_exists.mp hrun
  obtain ⟨x₀, h₀, hy⟩ := Option.bind_eq_some_iff.mp hy
  obtain ⟨x, hx, hy⟩ := Option.bind_eq_some_iff.mp hy
  split at hy
  · rename_i hm
    exact ⟨x₀, h₀, x, hx, hm, flushMemgraph_allOrNone_iff h₀ (reaches_of_run hx) hm
      { after := 3, durable := true } splittingConfig⟩
  · exact absurd hy nofun

/-- **A flush that is stopped between two commits** leaves half of its memgraph behind: two edges of
different types, and I/O that fails after the first commit. -/
theorem stopped_half :
    ∃ x₀, create splittingConfig = some x₀ ∧
      ∃ x, run step (fun _ _ => True) x₀ [.insertEdge 1 2 1, .insertEdge 1 3 2] = some x ∧
        0 ∈ x.engine.running ∧
        ∃ e', Engine.openDir splittingConfig
            (stateOf (Engine.flushMemgraph 0
              (x.withFault (some { after := 2, durable := false })))).files
            (stateOf (Engine.flushMemgraph 0
              (x.withFault (some { after := 2, durable := false })))).manifest = .ok () e' ∧
          ¬ ((∀ r, (x.engine.heap 0).Stores r → r ∈ e'.liveRecords) ∨
            ∀ r, (x.engine.heap 0).Stores r → r ∉ e'.liveRecords) := by
  have hrun : ((create splittingConfig).bind fun x₀ =>
      (run step (fun _ _ => True) x₀ [.insertEdge 1 2 1, .insertEdge 1 3 2]).bind fun x =>
        if 0 ∈ x.engine.running ∧ (buildL0FlushSegments x.engine.config
          (x.engine.heap 0).allEdgesSorted).length = 2 then some x else none).isSome := by
    decide +kernel
  obtain ⟨y, hy⟩ := Option.isSome_iff_exists.mp hrun
  obtain ⟨x₀, h₀, hy⟩ := Option.bind_eq_some_iff.mp hy
  obtain ⟨x, hx, hy⟩ := Option.bind_eq_some_iff.mp hy
  split at hy
  · rename_i hm
    obtain ⟨hwf, hsep, -⟩ := withFault_spec (inv_of_reaches (reaches_of_run hx) (inv_create h₀))
      (some { after := 2, durable := false })
    obtain ⟨e', hopen, hiff⟩ := Engine.stopped_allOrNone_iff hwf hsep hm.1 rfl splittingConfig
    refine ⟨x₀, h₀, x, hx, hm.1, e', hopen, fun h => ?_⟩
    have hbad := hiff.mp h
    rw [show (x.withFault (some { after := 2, durable := false })).config = x.engine.config from rfl,
      show (x.withFault (some { after := 2, durable := false })).heap = x.engine.heap from rfl,
      hm.2] at hbad
    exact absurd hbad (by decide)
  · exact absurd hy nofun

end Session

end LsmGraph
