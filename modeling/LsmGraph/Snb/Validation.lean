import LsmGraph.Snb.Http
import LsmGraph.Snb.HttpUpdates

/-! # Validation runs

A validation file lists requests with the answers that they should get. A mixed run applies the updates
among them and asks the queries of the graph as it is then; a plain run only asks. Both stop early when
they have seen enough lines. The report of a mixed run counts verdicts, one for every line that counts,
each passed on the graph after the updates of the earlier lines and no others (`validateMixed_spec`). On
a file without updates both runs report the same (`validateFile_eq_mixed`). -/

namespace LsmGraph

open UpdateStream

/-- What the runs call: the parser of JSON, the queries, and the comparison of their answers with those
that were expected. -/
structure Harness where
  fromStr : List Char → Except String Json
  dispatchQuery : StoredGraph → Json → Option String → Except String (Option (String × Json))
  valuesEqual : String → Json → Json → Bool

namespace Validation

/-- The JSON value `first_failure`. -/
inductive Failure
  | mismatch (line : Nat) (params expected actual : Json)
  | fileNotFound (query : List Char)

/-- `MixedValidationReport`. -/
structure MixedReport where
  processed : Nat
  readsChecked : Nat
  readsPassed : Nat
  updatesApplied : Nat
  skipped : Nat
  failed : Nat
  firstFailure : Option Failure

/-- `ValidationReport`. -/
structure Report where
  checked : Nat
  passed : Nat
  skipped : Nat
  failed : Nat
  firstFailure : Option Failure

/-- `BatchValidationReport`. -/
structure BatchReport where
  reports : List Report
  checked : Nat
  passed : Nat
  skipped : Nat
  failed : Nat

/-- The report of a mixed run without updates. -/
def Report.mixed (r : Report) : MixedReport :=
  ⟨r.checked + r.skipped, r.checked, r.passed, 0, r.skipped, r.failed, r.firstFailure⟩

/-- A line with a separator, and its number from 0. -/
structure Test where
  lineNo : Nat
  paramsRaw : List Char
  expectedRaw : List Char

end Validation

namespace Validation

/-! ## Verdicts -/

/-- What comes of a line. -/
inductive Verdict
  | updated (u : Update)
  | skipped
  | passed
  | failed (failure : Failure)

namespace Verdict

/-- The graph behind a line. -/
def after (g : StoredGraph) : Verdict → StoredGraph
  | updated u => g.applyUpdate u
  | _ => g

/-- The report behind a line. -/
def note (r : MixedReport) : Verdict → MixedReport
  | updated _ => { r with processed := r.processed + 1, updatesApplied := r.updatesApplied + 1 }
  | skipped => { r with processed := r.processed + 1, skipped := r.skipped + 1 }
  | passed =>
      { r with
        processed := r.processed + 1
        readsChecked := r.readsChecked + 1
        readsPassed := r.readsPassed + 1 }
  | failed failure =>
      { r with
        processed := r.processed + 1
        readsChecked := r.readsChecked + 1
        failed := r.failed + 1
        firstFailure := r.firstFailure.or (some failure) }

def update : Verdict → Option Update
  | updated u => some u
  | _ => none

def failure : Verdict → Option Failure
  | failed failure => some failure
  | _ => none

def isUpdated : Verdict → Bool
  | updated _ => true
  | _ => false

def isSkipped : Verdict → Bool
  | skipped => true
  | _ => false

def isPassed : Verdict → Bool
  | passed => true
  | _ => false

def isFailed : Verdict → Bool
  | failed _ => true
  | _ => false

end Verdict

/-- The report on some verdicts. -/
def mixedReport (verdicts : List Verdict) : MixedReport where
  processed := verdicts.length
  readsChecked := verdicts.countP Verdict.isPassed + verdicts.countP Verdict.isFailed
  readsPassed := verdicts.countP Verdict.isPassed
  updatesApplied := verdicts.countP Verdict.isUpdated
  skipped := verdicts.countP Verdict.isSkipped
  failed := verdicts.countP Verdict.isFailed
  firstFailure := (verdicts.filterMap Verdict.failure).head?

/-- The lines with a separator. -/
def testsOfLines (lines : List (List Char × Nat)) : List Test :=
  lines.filterMap fun line =>
    (Http.splitOnce '|' line.1).map fun parts => ⟨line.2, parts.1, parts.2⟩

def tests (text : List Char) : List Test := testsOfLines (Http.lines text).zipIdx

/-- What a limit leaves after so many were processed; 0 is no limit. -/
def testsLeft (maxLines processed : Nat) (ts : List Test) : List Test :=
  if maxLines = 0 then ts else ts.take (maxLines - processed)

theorem testsLeft_cons {maxLines processed : Nat} (hgo : ¬(maxLines ≠ 0 ∧ processed ≥ maxLines))
    (t : Test) (ts : List Test) :
    testsLeft maxLines processed (t :: ts) = t :: testsLeft maxLines (processed + 1) ts := by
  rw [testsLeft, testsLeft]
  split
  · rfl
  · have hleft : maxLines - processed = maxLines - (processed + 1) + 1 := by omega
    rw [hleft, List.take_succ_cons]

theorem testsLeft_of_stop {maxLines processed : Nat} (hstop : maxLines ≠ 0 ∧ processed ≥ maxLines)
    (ts : List Test) : testsLeft maxLines processed ts = [] := by
  rw [testsLeft, if_neg hstop.1, Nat.sub_eq_zero_of_le hstop.2, List.take_zero]

end Validation

open Validation

namespace Harness

variable (h : Harness)

/-! ## The runs -/

/-- What `validate_mixed_file_with_snb` does with a line that has a separator. -/
def validateMixedLine (s : StoredGraph × MixedReport) (t : Test) :
    Except String (StoredGraph × MixedReport) := do
  let (snb, r) := s
  let r := { r with processed := r.processed + 1 }
  let params ← h.fromStr t.paramsRaw
  let expected ← h.fromStr t.expectedRaw
  if expected.asStr = some "-1" then
    match updateEndpointForParams params with
    | some endpoint =>
        let snb ← snb.runDgsHttpUpdate endpoint params
        return (snb, { r with updatesApplied := r.updatesApplied + 1 })
    | none => return (snb, { r with skipped := r.skipped + 1 })
  else
    match ← h.dispatchQuery snb params none with
    | none => return (snb, { r with skipped := r.skipped + 1 })
    | some (queryName, actual) =>
        let r := { r with readsChecked := r.readsChecked + 1 }
        if h.valuesEqual queryName actual expected then
          return (snb, { r with readsPassed := r.readsPassed + 1 })
        else
          return (snb, { r with
            failed := r.failed + 1
            firstFailure := r.firstFailure.or (some (.mismatch (t.lineNo + 1) params expected actual)) })

def validateMixedLines (maxLines : Nat) :
    List (List Char × Nat) → StoredGraph × MixedReport → Except String (StoredGraph × MixedReport)
  | [], s => .ok s
  | (line, lineNo) :: rest, s =>
      if maxLines ≠ 0 ∧ s.2.processed ≥ maxLines then .ok s
      else
        match Http.splitOnce '|' line with
        | none => validateMixedLines maxLines rest s
        | some (paramsRaw, expectedRaw) => do
            let s ← h.validateMixedLine s ⟨lineNo, paramsRaw, expectedRaw⟩
            validateMixedLines maxLines rest s

/-- `validate_mixed_file_with_snb` on the text of a file, with the graph that it leaves. -/
def validateMixedFile (maxLines : Nat) (text : List Char) (snb : StoredGraph) :
    Except String (StoredGraph × MixedReport) :=
  h.validateMixedLines maxLines (Http.lines text).zipIdx (snb, ⟨0, 0, 0, 0, 0, 0, none⟩)

/-- What `validate_file_with_snb` does with a line that has a separator. -/
def validateLine (snb : StoredGraph) (queryHint : Option String) (r : Report) (t : Test) :
    Except String Report := do
  let params ← h.fromStr t.paramsRaw
  let expected ← h.fromStr t.expectedRaw
  match ← h.dispatchQuery snb params queryHint with
  | none => return { r with skipped := r.skipped + 1 }
  | some (queryName, actual) =>
      let r := { r with checked := r.checked + 1 }
      if h.valuesEqual queryName actual expected then return { r with passed := r.passed + 1 }
      else
        return { r with
          failed := r.failed + 1
          firstFailure := r.firstFailure.or (some (.mismatch (t.lineNo + 1) params expected actual)) }

def validateLines (snb : StoredGraph) (queryHint : Option String) (maxLines : Nat) :
    List (List Char × Nat) → Report → Except String Report
  | [], r => .ok r
  | (line, lineNo) :: rest, r =>
      if maxLines ≠ 0 ∧ r.checked ≥ maxLines then .ok r
      else
        match Http.splitOnce '|' line with
        | none => validateLines snb queryHint maxLines rest r
        | some (paramsRaw, expectedRaw) => do
            let r ← h.validateLine snb queryHint r ⟨lineNo, paramsRaw, expectedRaw⟩
            validateLines snb queryHint maxLines rest r

/-- `validate_file_with_snb` on the text of a file. -/
def validateFile (queryHint : Option String) (maxLines : Nat) (text : List Char) (snb : StoredGraph) :
    Except String Report :=
  h.validateLines snb queryHint maxLines (Http.lines text).zipIdx ⟨0, 0, 0, 0, none⟩

/-! ## What a run reports -/

/-- The verdict on a line, on a graph. -/
def judge (g : StoredGraph) (t : Test) : Except String Verdict := do
  let params ← h.fromStr t.paramsRaw
  let expected ← h.fromStr t.expectedRaw
  if expected.asStr = some "-1" then
    match (updateEndpointForParams params).bind fun endpoint => readRequest endpoint params with
    | some u => return .updated u
    | none => return .skipped
  else
    match ← h.dispatchQuery g params none with
    | none => return .skipped
    | some (queryName, actual) =>
        if h.valuesEqual queryName actual expected then return .passed
        else return .failed (.mismatch (t.lineNo + 1) params expected actual)

/-- Verdicts on lines one after the other, each on the graph that the ones before have left. -/
inductive Judged : StoredGraph → List Test → List Verdict → StoredGraph → Prop
  | done {g : StoredGraph} : Judged g [] [] g
  | next {g g' : StoredGraph} {t : Test} {ts : List Test} {v : Verdict} {vs : List Verdict}
      (hjudge : h.judge g t = .ok v) (hrest : Judged (v.after g) ts vs g') :
      Judged g (t :: ts) (v :: vs) g'

variable {h}

/-- An update that is recognised can be read. -/
theorem readRequest_of_endpoint {params : Json} {endpoint : String}
    (hendpoint : updateEndpointForParams params = some endpoint) :
    ∃ u, readRequest endpoint params = some u := by
  rw [updateEndpointForParams] at hendpoint
  split_ifs at hendpoint <;> cases hendpoint <;> exact ⟨_, rfl⟩

/-- **Step lemma.** -/
theorem validateMixedLine_eq (s : StoredGraph × MixedReport) (t : Test) :
    h.validateMixedLine s t = (h.judge s.1 t).map fun v => (v.after s.1, v.note s.2) := by
  rw [validateMixedLine, judge]
  cases hparams : h.fromStr t.paramsRaw with
  | error e => rfl
  | ok params =>
      cases hexpected : h.fromStr t.expectedRaw with
      | error e => rfl
      | ok expected =>
          simp only [Except.bind, bind]
          split
          · cases hendpoint : updateEndpointForParams params with
            | none => rfl
            | some endpoint =>
                obtain ⟨u, hread⟩ := readRequest_of_endpoint hendpoint
                simp only [Option.bind_some, hread, StoredGraph.runDgsHttpUpdate_eq_read]
                rfl
          · cases h.dispatchQuery s.1 params none with
            | error e => rfl
            | ok answer =>
                cases answer with
                | none => rfl
                | some answer =>
                    dsimp only
                    split <;> rfl

theorem processed_note (v : Verdict) (r : MixedReport) : (v.note r).processed = r.processed + 1 := by
  cases v <;> rfl

/-- The lines of the loop are the tests that the limit leaves. -/
theorem validateMixedLines_eq (maxLines : Nat) (lines : List (List Char × Nat))
    (s : StoredGraph × MixedReport) :
    h.validateMixedLines maxLines lines s =
      (testsLeft maxLines s.2.processed (testsOfLines lines)).foldlM h.validateMixedLine s := by
  induction lines generalizing s with
  | nil =>
      have hnone : testsLeft maxLines s.2.processed (testsOfLines []) = [] := by
        rw [testsLeft]
        split
        · rfl
        · exact List.take_nil
      rw [hnone]
      rfl
  | cons line lines ih =>
      obtain ⟨line, lineNo⟩ := line
      rw [validateMixedLines]
      by_cases hstop : maxLines ≠ 0 ∧ s.2.processed ≥ maxLines
      · rw [if_pos hstop, testsLeft_of_stop hstop]
        rfl
      · rw [if_neg hstop]
        cases hsplit : Http.splitOnce '|' line with
        | none =>
            have htests : testsOfLines ((line, lineNo) :: lines) = testsOfLines lines :=
              List.filterMap_cons_none (by rw [hsplit]; rfl)
            rw [htests]
            exact ih s
        | some parts =>
            let t : Test := ⟨lineNo, parts.1, parts.2⟩
            have htests : testsOfLines ((line, lineNo) :: lines) = t :: testsOfLines lines :=
              List.filterMap_cons_some (by rw [hsplit]; rfl)
            rw [htests, testsLeft_cons hstop, List.foldlM_cons]
            show h.validateMixedLine s t >>= h.validateMixedLines maxLines lines = _
            rw [validateMixedLine_eq]
            cases h.judge s.1 t with
            | error e => rfl
            | ok v =>
                refine (ih _).trans ?_
                rw [processed_note]
                rfl

/-- A run that succeeds has a verdict on every test. -/
theorem foldlM_validateMixedLine_ok {ts : List Test} {g g' : StoredGraph} {r r' : MixedReport} :
    ts.foldlM h.validateMixedLine (g, r) = .ok (g', r') ↔
      ∃ verdicts, h.Judged g ts verdicts g' ∧ r' = verdicts.foldl Verdict.note r := by
  induction ts generalizing g r with
  | nil =>
      constructor
      · intro hok
        cases hok
        exact ⟨[], .done, rfl⟩
      · rintro ⟨verdicts, hjudged, rfl⟩
        cases hjudged
        rfl
  | cons t ts ih =>
      rw [List.foldlM_cons, validateMixedLine_eq]
      cases hjudge : h.judge g t with
      | error e =>
          refine iff_of_false nofun ?_
          rintro ⟨verdicts, hjudged, -⟩
          cases hjudged with
          | next hfirst _ => cases hjudge.symm.trans hfirst
      | ok v =>
          refine (ih (g := v.after g) (r := v.note r)).trans ?_
          constructor
          · rintro ⟨verdicts, hjudged, rfl⟩
            exact ⟨v :: verdicts, .next hjudge hjudged, rfl⟩
          · rintro ⟨verdicts, hjudged, rfl⟩
            cases hjudged with
            | next hfirst hrest =>
                cases hjudge.symm.trans hfirst
                exact ⟨_, hrest, rfl⟩

/-- A run that fails does so on the first line on which there is no verdict. -/
theorem foldlM_validateMixedLine_error {ts : List Test} {g : StoredGraph} {r : MixedReport}
    {e : String} :
    ts.foldlM h.validateMixedLine (g, r) = .error e ↔
      ∃ before t rest verdicts g', ts = before ++ t :: rest ∧ h.Judged g before verdicts g' ∧
        h.judge g' t = .error e := by
  induction ts generalizing g r with
  | nil => exact iff_of_false nofun fun ⟨before, t, rest, _, _, heq, _⟩ => by simp at heq
  | cons t ts ih =>
      rw [List.foldlM_cons, validateMixedLine_eq]
      cases hjudge : h.judge g t with
      | error e' =>
          constructor
          · intro herror
            cases herror
            exact ⟨[], t, ts, [], g, rfl, .done, hjudge⟩
          · rintro ⟨before, t', rest, verdicts, g', heq, hjudged, hfail⟩
            cases hjudged with
            | done =>
                cases heq
                cases hjudge.symm.trans hfail
                rfl
            | next hfirst _ =>
                cases heq
                cases hjudge.symm.trans hfirst
      | ok v =>
          refine (ih (g := v.after g) (r := v.note r)).trans ?_
          constructor
          · rintro ⟨before, t', rest, verdicts, g', rfl, hjudged, hfail⟩
            exact ⟨t :: before, t', rest, v :: verdicts, g', rfl, .next hjudge hjudged, hfail⟩
          · rintro ⟨before, t', rest, verdicts, g', heq, hjudged, hfail⟩
            cases hjudged with
            | done =>
                cases heq
                cases hjudge.symm.trans hfail
            | next hfirst hrest =>
                cases heq
                cases hjudge.symm.trans hfirst
                exact ⟨_, t', rest, _, g', rfl, hrest, hfail⟩

theorem foldl_note (verdicts : List Verdict) :
    verdicts.foldl Verdict.note ⟨0, 0, 0, 0, 0, 0, none⟩ = mixedReport verdicts := by
  induction verdicts using List.reverseRecOn with
  | nil => rfl
  | append_singleton verdicts v ih =>
      rw [List.foldl_append, ih]
      cases v <;>
        simp [mixedReport, Verdict.note, Verdict.isUpdated, Verdict.isSkipped, Verdict.isPassed,
          Verdict.isFailed, Verdict.failure, List.countP_append, List.filterMap_append,
          List.head?_append, Nat.add_assoc, Nat.add_comm 1]

/-- Every line is an update, a line that is skipped, or a query that is checked. -/
theorem processed_mixedReport (verdicts : List Verdict) :
    let r := mixedReport verdicts
    r.processed = r.updatesApplied + r.skipped + r.readsChecked := by
  induction verdicts with
  | nil => rfl
  | cons v verdicts ih =>
      dsimp only [mixedReport] at ih ⊢
      cases v <;>
        simp only [List.length_cons, List.countP_cons, Verdict.isUpdated, Verdict.isSkipped,
          Verdict.isPassed, Verdict.isFailed] <;> simp only [if_true, Bool.false_eq_true, if_false] <;>
          omega

theorem firstFailure_mixedReport (verdicts : List Verdict) :
    (mixedReport verdicts).firstFailure = none ↔ (mixedReport verdicts).failed = 0 := by
  rw [mixedReport, List.head?_eq_none_iff, List.filterMap_eq_nil_iff, List.countP_eq_zero]
  refine forall₂_congr fun v _ => ?_
  cases v <;> simp [Verdict.failure, Verdict.isFailed]

theorem Judged.graph {g g' : StoredGraph} {ts : List Test} {verdicts : List Verdict}
    (hjudged : h.Judged g ts verdicts g') :
    g' = (verdicts.filterMap Verdict.update).foldl StoredGraph.applyUpdate g := by
  induction hjudged with
  | done => rfl
  | @next g g' t ts v vs _ _ ih =>
      rw [ih]
      cases v <;> rfl

/-- **A mixed run succeeds iff there is a verdict on every line**, each on the graph after the updates
of the lines before, and what it reports is their numbers. It fails with what the parser or a query
fails with on the first line on which there is none. -/
theorem validateMixed_spec (h : Harness) (maxLines : Nat) (text : List Char) (g : StoredGraph) :
    let ts := testsLeft maxLines 0 (tests text)
    (∀ g' report, h.validateMixedFile maxLines text g = .ok (g', report) ↔
      ∃ verdicts, h.Judged g ts verdicts g' ∧ report = mixedReport verdicts ∧
        g' = (verdicts.filterMap Verdict.update).foldl StoredGraph.applyUpdate g ∧
        report.processed = report.updatesApplied + report.skipped + report.readsChecked ∧
        report.readsChecked = report.readsPassed + report.failed ∧
        (report.firstFailure = none ↔ report.failed = 0)) ∧
      ∀ e, h.validateMixedFile maxLines text g = .error e ↔
        ∃ before t rest verdicts g', ts = before ++ t :: rest ∧ h.Judged g before verdicts g' ∧
          h.judge g' t = .error e := by
  intro ts
  have hrun : h.validateMixedFile maxLines text g =
      ts.foldlM h.validateMixedLine (g, ⟨0, 0, 0, 0, 0, 0, none⟩) := validateMixedLines_eq _ _ _
  refine ⟨fun g' report => ?_, fun e => ?_⟩
  · rw [hrun, foldlM_validateMixedLine_ok]
    refine exists_congr fun verdicts => and_congr_right fun hjudged => ?_
    rw [foldl_note]
    refine ⟨?_, fun hreport => hreport.1⟩
    rintro rfl
    exact ⟨rfl, hjudged.graph, processed_mixedReport verdicts, rfl, firstFailure_mixedReport verdicts⟩
  · rw [hrun, foldlM_validateMixedLine_error]

/-! ## Runs without updates -/

/-- A line that is no update. -/
theorem validateMixedLine_of_read {t : Test}
    (hread : ∀ expected, h.fromStr t.expectedRaw = .ok expected → expected.asStr ≠ some "-1")
    (g : StoredGraph) (r : Report) :
    h.validateMixedLine (g, r.mixed) t = (h.validateLine g none r t).map fun r' => (g, r'.mixed) := by
  rw [validateMixedLine, validateLine]
  cases h.fromStr t.paramsRaw with
  | error e => rfl
  | ok params =>
      cases hexpected : h.fromStr t.expectedRaw with
      | error e => rfl
      | ok expected =>
          simp only [Except.bind, bind, if_neg (hread expected hexpected)]
          cases h.dispatchQuery g params none with
          | error e => rfl
          | ok answer =>
              cases answer with
              | none => rfl
              | some answer =>
                  dsimp only
                  split <;> simp [Report.mixed, Except.map, pure, Except.pure, Nat.add_right_comm]

/-- A line that is answered is not skipped. -/
theorem skipped_validateLine {g : StoredGraph} {queryHint : Option String} {t : Test} {r r' : Report}
    (hanswered : ∀ params, h.dispatchQuery g params queryHint ≠ .ok none)
    (hok : h.validateLine g queryHint r t = .ok r') : r'.skipped = r.skipped := by
  rw [validateLine, Base.bind_eq_ok] at hok
  obtain ⟨params, -, hok⟩ := hok
  obtain ⟨expected, -, hok⟩ := Base.bind_eq_ok.mp hok
  obtain ⟨answer, hanswer, hok⟩ := Base.bind_eq_ok.mp hok
  cases answer with
  | none => exact absurd hanswer (hanswered params)
  | some answer =>
      dsimp only at hok
      split at hok <;> cases hok <;> rfl

/-- The two loops on lines that are no updates, where either there is no limit or nothing is skipped. -/
theorem validateMixedLines_of_reads {lines : List (List Char × Nat)} {maxLines : Nat}
    {g : StoredGraph} (hreads : ∀ t ∈ testsOfLines lines, ∀ expected,
      h.fromStr t.expectedRaw = .ok expected → expected.asStr ≠ some "-1") (r : Report)
    (hlimit : maxLines = 0 ∨
      (∀ params, h.dispatchQuery g params none ≠ .ok none) ∧ r.skipped = 0) :
    h.validateMixedLines maxLines lines (g, r.mixed) =
      (h.validateLines g none maxLines lines r).map fun r' => (g, r'.mixed) := by
  induction lines generalizing r with
  | nil => rfl
  | cons line lines ih =>
      obtain ⟨line, lineNo⟩ := line
      have hstop : (maxLines ≠ 0 ∧ r.mixed.processed ≥ maxLines) ↔
          (maxLines ≠ 0 ∧ r.checked ≥ maxLines) := by
        refine and_congr_right fun hne => ?_
        rw [Report.mixed, (hlimit.resolve_left hne).2, Nat.add_zero]
      rw [validateMixedLines, validateLines]
      by_cases hgo : maxLines ≠ 0 ∧ r.checked ≥ maxLines
      · rw [if_pos (hstop.mpr hgo), if_pos hgo]
        rfl
      · rw [if_neg (mt hstop.mp hgo), if_neg hgo]
        cases hsplit : Http.splitOnce '|' line with
        | none =>
            refine ih (fun t ht => hreads t ?_) r hlimit
            rwa [testsOfLines, List.filterMap_cons_none (by rw [hsplit]; rfl)]
        | some parts =>
            let t : Test := ⟨lineNo, parts.1, parts.2⟩
            have htests : testsOfLines ((line, lineNo) :: lines) = t :: testsOfLines lines :=
              List.filterMap_cons_some (by rw [hsplit]; rfl)
            rw [htests] at hreads
            obtain ⟨hread, hrest⟩ := List.forall_mem_cons.mp hreads
            show h.validateMixedLine (g, r.mixed) t >>= h.validateMixedLines maxLines lines =
              (h.validateLine g none r t >>= h.validateLines g none maxLines lines).map _
            rw [validateMixedLine_of_read hread]
            cases hline : h.validateLine g none r t with
            | error e => rfl
            | ok r' =>
                refine ih hrest r' (hlimit.imp_right fun ⟨hanswered, hskipped⟩ => ⟨hanswered, ?_⟩)
                rw [skipped_validateLine hanswered hline, hskipped]

/-- **Both runs report the same** on a file without updates, if there is no limit or no query is
skipped. With a limit they differ in what they skip: to a mixed run it counts. -/
theorem validateMixedFile_of_reads {h : Harness} {maxLines : Nat} {text : List Char} {g : StoredGraph}
    (hreads : ∀ t ∈ tests text, ∀ expected, h.fromStr t.expectedRaw = .ok expected →
      expected.asStr ≠ some "-1")
    (hlimit : maxLines = 0 ∨ ∀ params, h.dispatchQuery g params none ≠ .ok none) :
    h.validateMixedFile maxLines text g =
      (h.validateFile none maxLines text g).map fun r => (g, r.mixed) :=
  validateMixedLines_of_reads hreads ⟨0, 0, 0, 0, none⟩ (hlimit.imp_right fun ha => ⟨ha, rfl⟩)

/-- Every query is answered, and as expected. -/
def answersAll : Harness where
  fromStr _ := .ok .null
  dispatchQuery _ _ _ := .ok (some ("IS1", .null))
  valuesEqual _ _ _ := true

theorem validateMixedFile_of_reads_answersAll :
    answersAll.validateMixedFile 1 "a|b\nc|d".toList ⟨⟨fun _ => none, fun _ => none⟩, .empty⟩ =
      .ok (⟨⟨fun _ => none, fun _ => none⟩, .empty⟩, ⟨1, 1, 1, 0, 0, 0, none⟩) :=
  validateMixedFile_of_reads (h := answersAll)
    (fun t _ expected hexpected => by cases hexpected; decide) (Or.inr fun _ => nofun)

/-! ## Batches -/

variable (h)

/-- The name of the file for a query. -/
def validationFile (query : List Char) : List Char :=
  "validation_params_".toList ++ query ++ ".csv".toList

/-- The report on one query of a batch. -/
def batchReport (files : List Char → Option (List Char)) (maxLines : Nat) (snb : StoredGraph)
    (query : List Char) : Except String Report :=
  match files (validationFile query) with
  | none => .ok ⟨0, 0, 0, 1, some (.fileNotFound query)⟩
  | some text => h.validateFile (some (String.ofList query)) maxLines text snb

/-- `validate_ic_batch` over the files of a directory. -/
def validateIcBatch (files : List Char → Option (List Char)) (queries : List (List Char))
    (maxLines : Nat) (snb : StoredGraph) : Except String BatchReport := do
  let queries := (queries.map fun query => (trim query).map Char.toLower).filter (· ≠ [])
  let reports ← queries.mapM (h.batchReport files maxLines snb)
  return ⟨reports, (reports.map Report.checked).sum, (reports.map Report.passed).sum,
    (reports.map Report.skipped).sum, (reports.map Report.failed).sum⟩

/-- What holds of the report of a plain run after every line. -/
structure Counts (maxLines : Nat) (r : Report) : Prop where
  checked : r.checked = r.passed + r.failed
  le : maxLines ≠ 0 → r.checked ≤ maxLines
  firstFailure : r.firstFailure = none ↔ r.failed = 0

variable {h}

theorem counts_validateLine {maxLines : Nat} {g : StoredGraph} {queryHint : Option String} {t : Test}
    {r r' : Report} (hcounts : Counts maxLines r) (hgo : ¬(maxLines ≠ 0 ∧ r.checked ≥ maxLines))
    (hok : h.validateLine g queryHint r t = .ok r') : Counts maxLines r' := by
  rw [validateLine, Base.bind_eq_ok] at hok
  obtain ⟨params, -, hok⟩ := hok
  obtain ⟨expected, -, hok⟩ := Base.bind_eq_ok.mp hok
  obtain ⟨answer, hanswer, hok⟩ := Base.bind_eq_ok.mp hok
  have hbelow : maxLines ≠ 0 → r.checked + 1 ≤ maxLines := fun hne => by
    by_contra hle
    exact hgo ⟨hne, by omega⟩
  have hchecked := hcounts.checked
  cases answer with
  | none =>
      cases hok
      exact ⟨hcounts.checked, hcounts.le, hcounts.firstFailure⟩
  | some answer =>
      dsimp only at hok
      split at hok <;> cases hok
      · exact ⟨by simp only [hchecked]; omega, hbelow, hcounts.firstFailure⟩
      · refine ⟨by simp only [hchecked]; omega, hbelow, iff_of_false ?_ (Nat.succ_ne_zero _)⟩
        cases r.firstFailure <;> nofun

theorem counts_validateLines {maxLines : Nat} {g : StoredGraph} {queryHint : Option String}
    {lines : List (List Char × Nat)} {r r' : Report} (hcounts : Counts maxLines r)
    (hok : h.validateLines g queryHint maxLines lines r = .ok r') : Counts maxLines r' := by
  induction lines generalizing r with
  | nil =>
      cases hok
      exact hcounts
  | cons line lines ih =>
      obtain ⟨line, lineNo⟩ := line
      rw [validateLines] at hok
      split at hok
      · cases hok
        exact hcounts
      · rename_i hgo
        split at hok
        · exact ih hcounts hok
        · obtain ⟨r₁, hline, hrest⟩ := Base.bind_eq_ok.mp hok
          exact ih (counts_validateLine hcounts hgo hline) hrest

/-- The reports of a batch. -/
theorem counts_batch {files : List Char → Option (List Char)} {maxLines : Nat} {snb : StoredGraph}
    {asked : List (List Char)} {reports : List Report}
    (hok : asked.mapM (h.batchReport files maxLines snb) = .ok reports) :
    reports.length = asked.length ∧
      (reports.map Report.checked).sum + asked.countP (fun query => files (validationFile query) = none) =
        (reports.map Report.passed).sum + (reports.map Report.failed).sum ∧
      (maxLines ≠ 0 → (reports.map Report.checked).sum ≤
        maxLines * asked.countP fun query => files (validationFile query) ≠ none) ∧
      ((reports.map Report.failed).sum = 0 ↔ ∀ r ∈ reports, r.firstFailure = none) := by
  induction asked generalizing reports with
  | nil =>
      cases hok
      simp
  | cons query asked ih =>
      rw [List.mapM_cons, Base.bind_eq_ok] at hok
      obtain ⟨r, hr, hok⟩ := hok
      obtain ⟨rest, hrest, hok⟩ := Base.bind_eq_ok.mp hok
      cases hok
      obtain ⟨hlength, hsum, hlimit, hfailed⟩ := ih hrest
      rw [batchReport] at hr
      simp only [List.map_cons, List.sum_cons, List.length_cons, List.forall_mem_cons, List.countP_cons,
        Nat.add_eq_zero_iff, hfailed]
      cases hfile : files (validationFile query) with
      | none =>
          rw [hfile] at hr
          cases hr
          refine ⟨by omega, by simp; omega, by simpa using hlimit, by simp⟩
      | some text =>
          rw [hfile] at hr
          have hcounts : Counts maxLines r :=
            counts_validateLines ⟨rfl, fun _ => Nat.zero_le _, iff_of_true rfl rfl⟩ hr
          have hchecked := hcounts.checked
          refine ⟨by omega, by simp; omega, fun hne => ?_, and_congr_left' hcounts.firstFailure.symm⟩
          refine (Nat.add_le_add (hcounts.le hne) (hlimit hne)).trans_eq ?_
          simp [Nat.mul_add, Nat.add_comm]

/-- **A batch accounts for every line**: a file that is not there counts as one failure, and no other
report has failures that were not checked; with a limit no file is checked further. -/
theorem validateIcBatch_counts {h : Harness} {files : List Char → Option (List Char)}
    {queries : List (List Char)} {maxLines : Nat} {snb : StoredGraph} {b : BatchReport}
    (hok : h.validateIcBatch files queries maxLines snb = .ok b) :
    let asked := (queries.map fun query => (trim query).map Char.toLower).filter (· ≠ [])
    b.reports.length = asked.length ∧
      b.checked + asked.countP (fun query => files (validationFile query) = none) =
        b.passed + b.failed ∧
      (maxLines ≠ 0 → b.checked ≤
        maxLines * asked.countP fun query => files (validationFile query) ≠ none) ∧
      (b.failed = 0 ↔ ∀ r ∈ b.reports, r.firstFailure = none) := by
  intro asked
  rw [validateIcBatch, Base.bind_eq_ok] at hok
  obtain ⟨reports, hreports, hok⟩ := hok
  cases hok
  exact counts_batch hreports

theorem validateIcBatch_counts_two :
    ∃ b, answersAll.validateIcBatch
        (fun name => if name = validationFile "ic1".toList then some "a|b\nc|d".toList else none)
        [" IC1".toList, "ic2".toList, " ".toList] 1 ⟨⟨fun _ => none, fun _ => none⟩, .empty⟩ = .ok b ∧
      b.reports.length = 2 ∧ b.checked + 1 = b.passed + b.failed := by
  obtain ⟨b, hok⟩ : ∃ b, answersAll.validateIcBatch
      (fun name => if name = validationFile "ic1".toList then some "a|b\nc|d".toList else none)
      [" IC1".toList, "ic2".toList, " ".toList] 1 ⟨⟨fun _ => none, fun _ => none⟩, .empty⟩ = .ok b :=
    ⟨_, rfl⟩
  obtain ⟨hlength, hcounts, -, -⟩ := validateIcBatch_counts hok
  exact ⟨b, hok, hlength, hcounts⟩

end Harness

end LsmGraph
