import LsmGraph.Library.Transition
import LsmGraph.Metrics.Latency

/-! # Latency metrics under concurrency

Any number of threads record into one `LatencyMetric` without a lock. A call of `record_us` takes one
atomic step at a time: the additions to `count`, `sum_us` and a bucket, and the loops of `fetch_min`
and `fetch_max`, which load the cell and then exchange it as long as the value is better than the one
seen last. The weak exchange may fail for no reason. `recorded` is kept for the statements only: the
latencies of the calls that have begun. -/

namespace LsmGraph

open Transition

/-- Where a call of `record_us` stands. -/
inductive RecordStage
  | count
  | sum
  | loadMin
  /-- In the loop of `fetch_min`, with the value seen last. -/
  | casMin (current : UInt64)
  | loadMax
  | casMax (current : UInt64)
  | bucket
  deriving DecidableEq, Repr

/-- A thread. -/
inductive Recorder
  | idle
  | recording (elapsedUs : UInt64) (stage : RecordStage)
  deriving DecidableEq, Repr

structure LatencySys where
  metric : LatencyMetric
  recorders : List Recorder
  recorded : List UInt64
  deriving DecidableEq, Repr

/-- One atomic step of a call; `spurious` says whether a weak exchange fails for no reason. -/
def recordStep (m : LatencyMetric) (elapsedUs : UInt64) (spurious : Bool) :
    RecordStage → LatencyMetric × Recorder
  | .count => ({ m with count := m.count + 1 }, .recording elapsedUs .sum)
  | .sum => ({ m with sumUs := m.sumUs + elapsedUs }, .recording elapsedUs .loadMin)
  | .loadMin => (m, .recording elapsedUs (.casMin m.minUs))
  | .casMin current =>
      if elapsedUs < current then
        if m.minUs = current ∧ spurious = false then
          ({ m with minUs := elapsedUs }, .recording elapsedUs .loadMax)
        else (m, .recording elapsedUs (.casMin m.minUs))
      else (m, .recording elapsedUs .loadMax)
  | .loadMax => (m, .recording elapsedUs (.casMax m.maxUs))
  | .casMax current =>
      if current < elapsedUs then
        if m.maxUs = current ∧ spurious = false then
          ({ m with maxUs := elapsedUs }, .recording elapsedUs .bucket)
        else (m, .recording elapsedUs (.casMax m.maxUs))
      else (m, .recording elapsedUs .bucket)
  | .bucket => ({ m with buckets := LatencyMetric.countIn m.buckets elapsedUs }, .idle)

inductive RecordAction
  /-- Thread `i` calls `record_us`. -/
  | call (i : Nat) (elapsedUs : UInt64)
  | step (i : Nat) (spurious : Bool)
  deriving DecidableEq, Repr

namespace LatencySys

/-- A new metric and its threads. -/
def start (threads : Nat) : LatencySys where
  metric := .empty
  recorders := List.replicate threads .idle
  recorded := []

def step (s : LatencySys) : RecordAction → Option LatencySys
  | .call i elapsedUs =>
      match s.recorders[i]? with
      | some .idle =>
          some { s with
            recorders := s.recorders.set i (.recording elapsedUs .count)
            recorded := elapsedUs :: s.recorded }
      | _ => none
  | .step i spurious =>
      match s.recorders[i]? with
      | some (.recording elapsedUs stage) =>
          let next := recordStep s.metric elapsedUs spurious stage
          some { s with metric := next.1, recorders := s.recorders.set i next.2 }
      | _ => none

end LatencySys

/-! ## The parts of a metric -/

/-- The five parts of a metric, each of which a call changes in one step. -/
inductive MetricPart
  | count
  | sum
  | min
  | max
  | bucket

/-- Two metrics have the same part. -/
def LatencyMetric.Agrees (m m' : LatencyMetric) : MetricPart → Prop
  | .count => m.count = m'.count
  | .sum => m.sumUs = m'.sumUs
  | .min => m.minUs = m'.minUs
  | .max => m.maxUs = m'.maxUs
  | .bucket => m.buckets = m'.buckets

/-- A call at this stage has yet to change the part. -/
def RecordStage.Before : MetricPart → RecordStage → Bool
  | .count, .count => true
  | .count, _ => false
  | .sum, .count | .sum, .sum => true
  | .sum, _ => false
  | .min, .count | .min, .sum | .min, .loadMin | .min, .casMin _ => true
  | .min, _ => false
  | .max, .bucket => false
  | .max, _ => true
  | .bucket, _ => true

/-- The latency that a thread has yet to enter into a part. -/
def Recorder.pending (part : MetricPart) : Recorder → List UInt64
  | .idle => []
  | .recording elapsedUs stage => if stage.Before part then [elapsedUs] else []

/-- What a thread in a loop saw last is not better than what the cell holds. -/
def Recorder.SeenBy (m : LatencyMetric) : Recorder → Prop
  | .recording _ (.casMin current) => m.minUs ≤ current
  | .recording _ (.casMax current) => current ≤ m.maxUs
  | _ => True

namespace LatencyMetric

theorem Agrees.trans {m m' m'' : LatencyMetric} {part : MetricPart} (h : m.Agrees m' part)
    (h' : m'.Agrees m'' part) : m.Agrees m'' part := by
  cases part <;> exact Eq.trans h h'

/-- Metrics that agree in all parts are equal. -/
theorem eq_of_agrees {m m' : LatencyMetric} (h : ∀ part, m.Agrees m' part) : m = m' := by
  have hcount : m.count = m'.count := h .count
  have hsum : m.sumUs = m'.sumUs := h .sum
  have hmin : m.minUs = m'.minUs := h .min
  have hmax : m.maxUs = m'.maxUs := h .max
  have hbuckets : m.buckets = m'.buckets := h .bucket
  cases m
  cases m'
  simp_all

/-- A recording changes each part by itself. -/
theorem Agrees.recordUs {m m' : LatencyMetric} {part : MetricPart} (h : m.Agrees m' part)
    (elapsedUs : UInt64) : (m.recordUs elapsedUs).Agrees (m'.recordUs elapsedUs) part := by
  cases part with
  | count => exact congrArg (· + 1) h
  | sum => exact congrArg (· + elapsedUs) h
  | min => exact congrArg (min elapsedUs) h
  | max => exact congrArg (max elapsedUs) h
  | bucket => exact congrArg (countIn · elapsedUs) h

end LatencyMetric

/-! ## One step -/

/-- What one step does to a part: nothing, or what the recording as a whole does to it. -/
def PartStep (m m' : LatencyMetric) (elapsedUs : UInt64) (r r' : Recorder) (part : MetricPart) : Prop :=
  (r'.pending part = r.pending part ∧ m'.Agrees m part) ∨
    (r.pending part = [elapsedUs] ∧ r'.pending part = [] ∧ m'.Agrees (m.recordUs elapsedUs) part)

/-- **One step of a call.** A loop that gives up because its value is no better than the one seen last
leaves the part as the recording would: the cell is at least as good as what was seen. -/
theorem recordStep_parts {m : LatencyMetric} {elapsedUs : UInt64} {stage : RecordStage}
    (spurious : Bool) (hseen : Recorder.SeenBy m (.recording elapsedUs stage)) (part : MetricPart) :
    PartStep m (recordStep m elapsedUs spurious stage).1 elapsedUs (.recording elapsedUs stage)
      (recordStep m elapsedUs spurious stage).2 part := by
  cases stage with
  | count => cases part <;> first | exact Or.inl ⟨rfl, rfl⟩ | exact Or.inr ⟨rfl, rfl, rfl⟩
  | sum => cases part <;> first | exact Or.inl ⟨rfl, rfl⟩ | exact Or.inr ⟨rfl, rfl, rfl⟩
  | loadMin => cases part <;> exact Or.inl ⟨rfl, rfl⟩
  | casMin current =>
      have hle : m.minUs ≤ current := hseen
      rw [recordStep]
      split
      · rename_i hlt
        split
        · rename_i hcas
          have hmin : elapsedUs = min elapsedUs m.minUs := (min_eq_left (hcas.1 ▸ hlt.le)).symm
          cases part <;> first | exact Or.inl ⟨rfl, rfl⟩ | exact Or.inr ⟨rfl, rfl, hmin⟩
        · cases part <;> exact Or.inl ⟨rfl, rfl⟩
      · rename_i hge
        have hmin : m.minUs = min elapsedUs m.minUs :=
          (min_eq_right (hle.trans (not_lt.mp hge))).symm
        cases part <;> first | exact Or.inl ⟨rfl, rfl⟩ | exact Or.inr ⟨rfl, rfl, hmin⟩
  | loadMax => cases part <;> exact Or.inl ⟨rfl, rfl⟩
  | casMax current =>
      have hle : current ≤ m.maxUs := hseen
      rw [recordStep]
      split
      · rename_i hlt
        split
        · rename_i hcas
          have hmax : elapsedUs = max elapsedUs m.maxUs := (max_eq_left (hcas.1 ▸ hlt.le)).symm
          cases part <;> first | exact Or.inl ⟨rfl, rfl⟩ | exact Or.inr ⟨rfl, rfl, hmax⟩
        · cases part <;> exact Or.inl ⟨rfl, rfl⟩
      · rename_i hge
        have hmax : m.maxUs = max elapsedUs m.maxUs :=
          (max_eq_right ((not_lt.mp hge).trans hle)).symm
        cases part <;> first | exact Or.inl ⟨rfl, rfl⟩ | exact Or.inr ⟨rfl, rfl, hmax⟩
  | bucket => cases part <;> first | exact Or.inl ⟨rfl, rfl⟩ | exact Or.inr ⟨rfl, rfl, rfl⟩

/-- The cells only get better, and a thread that looks at one sees what it holds. -/
theorem recordStep_seen (m : LatencyMetric) (elapsedUs : UInt64) (spurious : Bool)
    (stage : RecordStage) :
    let next := recordStep m elapsedUs spurious stage
    (next.1.minUs ≤ m.minUs ∧ m.maxUs ≤ next.1.maxUs) ∧ next.2.SeenBy next.1 := by
  cases stage with
  | casMin current =>
      rw [recordStep]
      split
      · rename_i hlt
        split
        · rename_i hcas
          exact ⟨⟨hcas.1 ▸ hlt.le, le_refl _⟩, trivial⟩
        · exact ⟨⟨le_refl _, le_refl _⟩, le_refl m.minUs⟩
      · exact ⟨⟨le_refl _, le_refl _⟩, trivial⟩
  | casMax current =>
      rw [recordStep]
      split
      · rename_i hlt
        split
        · rename_i hcas
          exact ⟨⟨le_refl _, hcas.1 ▸ hlt.le⟩, trivial⟩
        · exact ⟨⟨le_refl _, le_refl _⟩, le_refl m.maxUs⟩
      · exact ⟨⟨le_refl _, le_refl _⟩, trivial⟩
  | loadMin => exact ⟨⟨le_refl _, le_refl _⟩, le_refl m.minUs⟩
  | loadMax => exact ⟨⟨le_refl _, le_refl _⟩, le_refl m.maxUs⟩
  | count => exact ⟨⟨le_refl _, le_refl _⟩, trivial⟩
  | sum => exact ⟨⟨le_refl _, le_refl _⟩, trivial⟩
  | bucket => exact ⟨⟨le_refl _, le_refl _⟩, trivial⟩

theorem Recorder.SeenBy.mono {m m' : LatencyMetric} {r : Recorder} (h : r.SeenBy m)
    (hmin : m'.minUs ≤ m.minUs) (hmax : m.maxUs ≤ m'.maxUs) : r.SeenBy m' := by
  match r, h with
  | .idle, _ => trivial
  | .recording _ (.casMin _), h => exact hmin.trans h
  | .recording _ (.casMax _), h => exact le_trans (show _ ≤ m.maxUs from h) hmax
  | .recording _ .count, _ | .recording _ .sum, _ | .recording _ .loadMin, _
  | .recording _ .loadMax, _ | .recording _ .bucket, _ => trivial

namespace LatencySys

/-! ## Runs -/

/-- Each part is that of the latencies which have been entered into it; the others are pending. -/
structure Consistent (s : LatencySys) : Prop where
  parts : ∀ part, ∃ entered : List UInt64,
    (entered ++ s.recorders.flatMap (Recorder.pending part)).Perm s.recorded ∧
      s.metric.Agrees (.ofLatencies entered) part
  seen : ∀ r ∈ s.recorders, r.SeenBy s.metric

theorem consistent_start (threads : Nat) : (start threads).Consistent where
  parts part := by
    refine ⟨[], ?_, ?_⟩
    · rw [List.nil_append, start]
      have hnone : (List.replicate threads Recorder.idle).flatMap (Recorder.pending part) = [] := by
        refine List.flatMap_eq_nil_iff.mpr fun r hr => ?_
        rw [(List.mem_replicate.mp hr).2]
        rfl
      rw [hnone]
    · rw [LatencyMetric.ofLatencies_nil, start]
      cases part <;> rfl
  seen r hr := by
    rw [(List.mem_replicate.mp hr).2]
    trivial

/-- What a thread contributes to a list that is put together from all threads. -/
theorem perm_flatMap_set {l : List Recorder} {i : Nat} {r : Recorder} (hr : l[i]? = some r)
    (r' : Recorder) (f : Recorder → List UInt64) :
    (l.flatMap f).Perm (f r ++ (l.eraseIdx i).flatMap f) ∧
      ((l.set i r').flatMap f).Perm (f r' ++ (l.eraseIdx i).flatMap f) := by
  obtain ⟨hi, rfl⟩ := List.getElem?_eq_some_iff.mp hr
  constructor
  · exact ((List.getElem_cons_eraseIdx_perm hi).symm.flatMap_right f)
  · exact ((List.set_perm_cons_eraseIdx hi r').flatMap_right f)

/-- **Every step keeps the parts consistent.** -/
theorem Consistent.step {s s' : LatencySys} {a : RecordAction} (h : s.Consistent)
    (hs : s.step a = some s') : s'.Consistent := by
  cases a with
  | call i elapsedUs =>
      rw [LatencySys.step] at hs
      split at hs
      · rename_i hidle
        cases hs
        refine ⟨fun part => ?_, fun r hr => ?_⟩
        · obtain ⟨entered, hperm, hagrees⟩ := h.parts part
          obtain ⟨hbefore, hafter⟩ := perm_flatMap_set hidle (.recording elapsedUs .count)
            (Recorder.pending part)
          have hpending : (Recorder.recording elapsedUs .count).pending part = [elapsedUs] := by
            cases part <;> rfl
          rw [hpending] at hafter
          have hrest := (hbefore.symm.append_left entered).trans hperm
          have hmiddle := List.perm_middle.trans (hrest.cons elapsedUs)
          exact ⟨entered, (hafter.append_left entered).trans hmiddle, hagrees⟩
        · rcases List.mem_or_eq_of_mem_set hr with hr | rfl
          · exact h.seen r hr
          · trivial
      · cases hs
  | step i spurious =>
      rw [LatencySys.step] at hs
      split at hs
      · rename_i elapsedUs stage hrecording
        cases hs
        have hseen := h.seen _ (List.mem_of_getElem? hrecording)
        obtain ⟨⟨hmin, hmax⟩, hsees⟩ := recordStep_seen s.metric elapsedUs spurious stage
        refine ⟨fun part => ?_, fun r hr => ?_⟩
        · obtain ⟨entered, hperm, hagrees⟩ := h.parts part
          obtain ⟨hbefore, hafter⟩ := perm_flatMap_set hrecording
            (recordStep s.metric elapsedUs spurious stage).2 (Recorder.pending part)
          have hrest := (hbefore.symm.append_left entered).trans hperm
          rcases recordStep_parts spurious hseen part with ⟨hsame, hkept⟩ | ⟨hthis, hnone, hentered⟩
          · rw [hsame] at hafter
            exact ⟨entered, (hafter.append_left entered).trans hrest, hkept.trans hagrees⟩
          · rw [hthis] at hrest
            rw [hnone, List.nil_append] at hafter
            refine ⟨elapsedUs :: entered, ?_, ?_⟩
            · exact (hafter.append_left _).trans (List.perm_middle.symm.trans hrest)
            · rw [← LatencyMetric.recordUs_ofLatencies]
              exact hentered.trans (hagrees.recordUs elapsedUs)
        · rcases List.mem_or_eq_of_mem_set hr with hr | rfl
          · exact (h.seen r hr).mono hmin hmax
          · exact hsees
      · cases hs

/-- **Nothing is lost between the threads.** Whenever no call is in progress, the metric is what the
recordings leave when they are made one after the other. -/
theorem metric_eq_sequential {threads : Nat} {s : LatencySys}
    (h : Reaches step (fun _ _ => True) (start threads) s) (hidle : ∀ r ∈ s.recorders, r = .idle) :
    s.metric = s.recorded.foldl LatencyMetric.recordUs .empty := by
  have hconsistent : s.Consistent :=
    h.invariant (consistent_start threads) fun _ _ _ hc _ hs => hc.step hs
  rw [LatencyMetric.foldl_recordUs]
  refine LatencyMetric.eq_of_agrees fun part => ?_
  obtain ⟨entered, hperm, hagrees⟩ := hconsistent.parts part
  have hnone : s.recorders.flatMap (Recorder.pending part) = [] := by
    refine List.flatMap_eq_nil_iff.mpr fun r hr => ?_
    rw [hidle r hr]
    rfl
  rw [hnone, List.append_nil] at hperm
  rw [← LatencyMetric.ofLatencies_perm hperm]
  exact hagrees

/-- Two calls that meet in `fetch_min`: the exchange of thread 1 fails once for good reason and once
for none. -/
def raceActions : List RecordAction :=
  [.call 0 10, .call 1 5, .step 0 false, .step 0 false, .step 0 false, .step 1 false, .step 1 false,
    .step 1 false, .step 0 false, .step 1 false, .step 1 true, .step 1 false] ++
    List.replicate 3 (.step 0 false) ++ List.replicate 3 (.step 1 false)

def raceEnd : LatencySys where
  metric := ⟨2, 15, 5, 10, 2 :: List.replicate 15 0⟩
  recorders := [.idle, .idle]
  recorded := [5, 10]

theorem metric_eq_sequential_race :
    raceEnd.metric = raceEnd.recorded.foldl LatencyMetric.recordUs .empty :=
  @metric_eq_sequential 2 raceEnd
    (@reaches_of_run _ _ step (fun _ _ => True) _ (start 2) raceEnd raceActions (by decide +kernel))
    (by decide)

end LatencySys

end LsmGraph
