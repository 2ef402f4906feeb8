import LsmGraph.Csr.Manifest
import LsmGraph.Library.Transition
import Mathlib.Data.List.Infix
import Mathlib.Data.List.Perm.Basic

/-! # The manifest as a text file

`append` writes one record as a line of JSON, in several write calls, and then the newline; `load`
parses the file line by line. A record is ASCII, so a character is a byte. `serde_json` is a
parameter (`SerdeJson`) of which only documented behaviour is assumed (`SerdeJson.Lawful`). The log of
completed appends loads as the records themselves (`loadText_logOf`); `load_torn_iff` says after which
torn appends it still does, and `serial_appends_load` which interleavings of appends keep the log
intact. -/

namespace LsmGraph

open Transition

abbrev Text := List Char

/-- What the manifest uses of `serde_json`: the write calls of `to_writer`, and `from_str`. -/
structure SerdeJson where
  write : ManifestRecord → List Text
  parse : Text → Option ManifestRecord

namespace SerdeJson

variable (j : SerdeJson)

/-- The JSON text of a record. -/
def text (r : ManifestRecord) : Text := (j.write r).flatten

/-- The write calls of one `append`: those of the record, and the newline. -/
def appendWrites (r : ManifestRecord) : List Text := j.write r ++ [['\n']]

/-- What `append` adds to the file. -/
def line (r : ManifestRecord) : Text := (j.appendWrites r).flatten

/-- A file that was written by completed appends. -/
def logOf (records : List ManifestRecord) : Text := records.flatMap j.line

/-- The behaviour of `serde_json` on the records of `R`: compact output starts with a brace and has no
control characters, it parses back, and the parser accepts neither a proper prefix of it nor further
text behind it. -/
structure Lawful (R : Set ManifestRecord) : Prop where
  no_newline : ∀ r ∈ R, ∀ c ∈ j.text r, c ≠ '\n' ∧ c ≠ '\r'
  starts : ∀ r ∈ R, ∃ c rest, j.text r = c :: rest ∧ c.isWhitespace = false
  parse_text : ∀ r ∈ R, j.parse (j.text r) = some r
  parse_prefix : ∀ r ∈ R, ∀ p, p <+: j.text r → p ≠ j.text r → j.parse p = none
  parse_trailing : ∀ r ∈ R, ∀ t : Text, (∃ c ∈ t, c.isWhitespace = false) →
    j.parse (j.text r ++ t) = none

end SerdeJson

namespace Manifest

/-! ## Loading -/

/-- `BufRead::lines` strips a carriage return before the newline. -/
def stripCr (line : Text) : Text := if line.getLast? = some '\r' then line.dropLast else line

/-- The lines of a text when `acc` is the line begun; a last line needs no newline. -/
def linesFrom (acc : Text) : Text → List Text
  | [] => if acc = [] then [] else [acc]
  | c :: rest =>
      if c = '\n' then stripCr acc :: linesFrom [] rest else linesFrom (acc ++ [c]) rest

theorem linesFrom_nil (acc : Text) : linesFrom acc [] = if acc = [] then [] else [acc] := rfl

theorem linesFrom_cons (acc : Text) (c : Char) (rest : Text) : linesFrom acc (c :: rest) =
    if c = '\n' then stripCr acc :: linesFrom [] rest else linesFrom (acc ++ [c]) rest := rfl

def lines (file : Text) : List Text := linesFrom [] file

/-- `line.trim().is_empty()`. -/
def isBlank (line : Text) : Bool := line.all Char.isWhitespace

/-- The records of the lines; blank lines are skipped, a line that does not parse is an error. -/
def parseLines (j : SerdeJson) : List Text → Except EngineError (List ManifestRecord)
  | [] => .ok []
  | line :: lines =>
      if isBlank line then parseLines j lines
      else
        match j.parse line with
        | none => .error .decode
        | some r => do
            let records ← parseLines j lines
            .ok (r :: records)

theorem parseLines_cons (j : SerdeJson) (line : Text) (lines : List Text) :
    parseLines j (line :: lines) =
      if isBlank line then parseLines j lines
      else
        match j.parse line with
        | none => .error .decode
        | some r => (do
            let records ← parseLines j lines
            .ok (r :: records)) := rfl

/-- `load` on the text of the file; a missing file loads like an empty one. -/
def loadText (j : SerdeJson) (file : Text) : Except EngineError ManifestState := do
  let records ← parseLines j (lines file)
  .ok (load records)

/-! ## Lines -/

/-- Text without a newline prolongs the line begun. -/
theorem linesFrom_append {acc t : Text} (ht : ∀ c ∈ t, c ≠ '\n') (rest : Text) :
    linesFrom acc (t ++ rest) = linesFrom (acc ++ t) rest := by
  induction t generalizing acc with
  | nil => rw [List.nil_append, List.append_nil]
  | cons c t ih =>
      rw [List.cons_append, linesFrom_cons, if_neg (ht c List.mem_cons_self),
        ih fun c' hc' => ht c' (List.mem_cons_of_mem c hc'), List.append_assoc]
      rfl

/-- Text without a newline is one line. -/
theorem lines_of_no_newline {t : Text} (ht : ∀ c ∈ t, c ≠ '\n') :
    lines t = if t = [] then [] else [t] := by
  have h := @linesFrom_append [] t ht []
  rw [List.append_nil, List.nil_append] at h
  rw [lines, h, linesFrom_nil]

/-- A line without carriage returns stands as it is. -/
theorem lines_line {t : Text} (ht : ∀ c ∈ t, c ≠ '\n' ∧ c ≠ '\r') (rest : Text) :
    lines (t ++ '\n' :: rest) = t :: lines rest := by
  rw [lines, linesFrom_append (fun c hc => (ht c hc).1), List.nil_append, linesFrom_cons,
    if_pos rfl, stripCr, if_neg]
  · rfl
  · exact fun h => (ht '\r' (List.mem_of_getLast? h)).2 rfl

section Lawful

variable {j : SerdeJson} {R : Set ManifestRecord} (hj : j.Lawful R)

include hj

/-- A line that holds a whole record and perhaps more is not blank. -/
theorem isBlank_text {r : ManifestRecord} (hr : r ∈ R) (t : Text) :
    isBlank (j.text r ++ t) = false := by
  obtain ⟨c, rest, htext, hc⟩ := hj.starts r hr
  simp [isBlank, htext, hc]

/-- The lines of completed appends are the texts of their records. -/
theorem lines_logOf {records : List ManifestRecord} (hrecords : ∀ r ∈ records, r ∈ R)
    (rest : Text) : lines (j.logOf records ++ rest) = records.map j.text ++ lines rest := by
  induction records with
  | nil => rfl
  | cons r records ih =>
      have hline : j.logOf (r :: records) ++ rest = j.text r ++ '\n' :: (j.logOf records ++ rest) := by
        simp [SerdeJson.logOf, SerdeJson.line, SerdeJson.appendWrites, SerdeJson.text]
      rw [hline, lines_line (hj.no_newline r (hrecords r List.mem_cons_self)),
        ih fun r' hr' => hrecords r' (List.mem_cons_of_mem r hr')]
      rfl

/-- Whole records parse to themselves. -/
theorem parseLines_texts {records : List ManifestRecord} (hrecords : ∀ r ∈ records, r ∈ R)
    (ls : List Text) : parseLines j (records.map j.text ++ ls) =
      (parseLines j ls).map (records ++ ·) := by
  induction records with
  | nil =>
      rw [List.map_nil, List.nil_append]
      cases parseLines j ls <;> rfl
  | cons r records ih =>
      have hr := hrecords r List.mem_cons_self
      have hblank := isBlank_text hj hr []
      rw [List.append_nil] at hblank
      have hrest := ih fun r' hr' => hrecords r' (List.mem_cons_of_mem r hr')
      rw [List.map_cons, List.cons_append, parseLines_cons, hblank, if_neg Bool.false_ne_true]
      simp only [hj.parse_text r hr, hrest]
      cases parseLines j ls <;> rfl

/-- The records of a log that goes on after some completed appends. -/
theorem loadText_append {records : List ManifestRecord} (hrecords : ∀ r ∈ records, r ∈ R)
    (rest : Text) : loadText j (j.logOf records ++ rest) =
      (parseLines j (lines rest)).map fun more => load (records ++ more) := by
  rw [loadText, lines_logOf hj hrecords, parseLines_texts hj hrecords]
  cases parseLines j (lines rest) <;> rfl

/-- **Completed appends are replayed, each once and in order.** -/
theorem loadText_logOf {records : List ManifestRecord} (hrecords : ∀ r ∈ records, r ∈ R) :
    loadText j (j.logOf records) = .ok (load records) := by
  have h := loadText_append hj hrecords []
  rw [List.append_nil] at h
  rw [h]
  exact congrArg (fun l => Except.ok (load l)) (List.append_nil records)

/-! ## A torn append -/

/-- A record cut short is an error of the load. -/
theorem parseLines_cut {torn : ManifestRecord} (htorn : torn ∈ R) {p : Text}
    (hp : p <+: j.text torn) (hnil : p ≠ []) (hne : p ≠ j.text torn) :
    parseLines j (lines p) = .error .decode := by
  have hnewline : ∀ c ∈ p, c ≠ '\n' := fun c hc => (hj.no_newline torn htorn c (hp.subset hc)).1
  have hblank : isBlank p = false := by
    obtain ⟨c, rest, htext, hc⟩ := hj.starts torn htorn
    obtain ⟨d, p', rfl⟩ := List.exists_cons_of_ne_nil hnil
    rw [htext, List.cons_prefix_cons] at hp
    simp [isBlank, hp.1, hc]
  rw [lines_of_no_newline hnewline, if_neg hnil, parseLines_cons, hblank,
    if_neg Bool.false_ne_true, hj.parse_prefix torn htorn p hp hne]

/-- A record glued to a record without its newline is an error of the load. -/
theorem parseLines_glued {torn r : ManifestRecord} (htorn : torn ∈ R) (hr : r ∈ R) :
    parseLines j (lines (j.text torn ++ j.logOf [r])) = .error .decode := by
  have hglued : j.text torn ++ j.logOf [r] = (j.text torn ++ j.text r) ++ '\n' :: [] := by
    simp [SerdeJson.logOf, SerdeJson.line, SerdeJson.appendWrites, SerdeJson.text]
  have hnewline : ∀ c ∈ j.text torn ++ j.text r, c ≠ '\n' ∧ c ≠ '\r' := by
    intro c hc
    rcases List.mem_append.mp hc with hc | hc
    · exact hj.no_newline torn htorn c hc
    · exact hj.no_newline r hr c hc
  have htrailing : j.parse (j.text torn ++ j.text r) = none := by
    obtain ⟨c, rest, htext, hc⟩ := hj.starts r hr
    exact hj.parse_trailing torn htorn _ ⟨c, htext ▸ List.mem_cons_self, hc⟩
  rw [hglued, lines_line hnewline, parseLines_cons, isBlank_text hj htorn,
    if_neg Bool.false_ne_true, htrailing]

end Lawful

/-- **A torn append leaves the log loadable iff** none of its bytes reached the file. `cut` bytes of
the append of `torn` are left, and `more` are the appends after the crash. -/
theorem load_torn_iff {j : SerdeJson} {R : Set ManifestRecord} (hj : j.Lawful R)
    {records : List ManifestRecord} (hrecords : ∀ r ∈ records, r ∈ R) {torn : ManifestRecord}
    (htorn : torn ∈ R) {cut : Nat} (hcut : cut < (j.line torn).length) :
    (∀ more : List ManifestRecord, (∀ r ∈ more, r ∈ R) →
      loadText j (j.logOf records ++ (j.line torn).take cut ++ j.logOf more) =
        .ok (load (records ++ more))) ↔ cut = 0 := by
  have hline : j.line torn = j.text torn ++ ['\n'] := by
    simp [SerdeJson.line, SerdeJson.appendWrites, SerdeJson.text]
  rw [hline, List.length_append, List.length_singleton] at hcut
  have htake : (j.line torn).take cut = (j.text torn).take cut := by
    rw [hline, List.take_append_of_le_length (Nat.lt_succ_iff.mp hcut)]
  rw [htake]
  constructor
  · intro h
    by_contra hzero
    by_cases hwhole : cut = (j.text torn).length
    · -- the next append is glued to the whole record
      have hload := h [torn] fun r hr => List.mem_singleton.mp hr ▸ htorn
      rw [hwhole, List.take_length, List.append_assoc, loadText_append hj hrecords,
        parseLines_glued hj htorn htorn] at hload
      exact absurd hload nofun
    · -- a proper part of the text does not parse, with nothing after it
      have hload := h [] nofun
      have hnil : (j.text torn).take cut ≠ [] := by
        intro hnil
        have hlen := congrArg List.length hnil
        rw [List.length_take, List.length_nil] at hlen
        omega
      have hne : (j.text torn).take cut ≠ j.text torn := by
        intro heq
        have hlen := congrArg List.length heq
        rw [List.length_take] at hlen
        omega
      have hempty : j.logOf [] = [] := rfl
      rw [hempty, List.append_nil, loadText_append hj hrecords,
        parseLines_cut hj htorn (List.take_prefix _ _) hnil hne] at hload
      exact absurd hload nofun
  · rintro rfl more hmore
    have hlog : j.logOf records ++ (j.text torn).take 0 ++ j.logOf more =
        j.logOf (records ++ more) := by
      rw [List.take_zero, List.append_nil, SerdeJson.logOf, SerdeJson.logOf, SerdeJson.logOf,
        List.flatMap_append]
    rw [hlog]
    refine loadText_logOf hj fun r hr => ?_
    rcases List.mem_append.mp hr with hr | hr
    · exact hrecords r hr
    · exact hmore r hr

/-! ### Two records as `serde_json` writes them -/

/-- A string is written as a quote, its text and a quote. -/
def quoted (t : Text) : List Text := [['\x22'], t, ['\x22']]

/-- The write calls of `to_writer` for the deletion of a file with a one-digit id. -/
def deleteWrites (digit : Char) : List Text :=
  [['\x7b']] ++ quoted ['o', 'p'] ++ [[':']] ++
    quoted ['D', 'e', 'l', 'e', 't', 'e', 'F', 'i', 'l', 'e'] ++ [[',']] ++
    quoted ['f', 'i', 'l', 'e', '_', 'i', 'd'] ++ [[':'], [digit], ['\x7d']]

/-- `serde_json` on the deletions of the files 1 and 2. -/
def sampleSerde : SerdeJson where
  write r :=
    if r = .deleteFile 1 then deleteWrites '1'
    else if r = .deleteFile 2 then deleteWrites '2' else []
  parse t :=
    if t = (deleteWrites '1').flatten then some (.deleteFile 1)
    else if t = (deleteWrites '2').flatten then some (.deleteFile 2) else none

def sampleRecords : Set ManifestRecord := {r | r ∈ [.deleteFile 1, .deleteFile 2]}

theorem sampleSerde_lawful : sampleSerde.Lawful sampleRecords := by
  have hlen : ∀ r ∈ [ManifestRecord.deleteFile 1, .deleteFile 2],
      (sampleSerde.text r).length = 31 := by decide +kernel
  constructor
  · have h : ∀ r ∈ [ManifestRecord.deleteFile 1, .deleteFile 2],
        (sampleSerde.text r).all fun c => c ≠ '\n' ∧ c ≠ '\r' := by decide +kernel
    intro r hr c hc
    exact of_decide_eq_true (List.all_eq_true.mp (h r hr) c hc)
  · have h : ∀ r ∈ [ManifestRecord.deleteFile 1, .deleteFile 2],
        ((sampleSerde.text r).head?.map Char.isWhitespace) = some false := by decide +kernel
    intro r hr
    obtain ⟨c, hhead, hc⟩ := Option.map_eq_some_iff.mp (h r hr)
    obtain ⟨rest, hrest⟩ := List.head?_eq_some_iff.mp hhead
    exact ⟨c, rest, hrest, hc⟩
  · have h : ∀ r ∈ [ManifestRecord.deleteFile 1, .deleteFile 2],
        sampleSerde.parse (sampleSerde.text r) = some r := by decide +kernel
    exact h
  · have h : ∀ r ∈ [ManifestRecord.deleteFile 1, .deleteFile 2],
        ∀ p ∈ (sampleSerde.text r).inits, p ≠ sampleSerde.text r → sampleSerde.parse p = none := by
      decide +kernel
    exact fun r hr p hp => h r hr p ((List.mem_inits _ _).mpr hp)
  · rintro r hr t ⟨c, hc, -⟩
    have hlong : 31 < (sampleSerde.text r ++ t).length := by
      rw [List.length_append, hlen r hr]
      have := List.length_pos_of_mem hc
      omega
    have hne : ∀ s : Text, s.length = 31 → sampleSerde.text r ++ t ≠ s := by
      rintro s hs rfl
      omega
    exact (if_neg (hne _ (by decide))).trans (if_neg (hne _ (by decide)))

theorem load_torn_iff_sample :
    (∀ more : List ManifestRecord, (∀ r ∈ more, r ∈ sampleRecords) →
      loadText sampleSerde (sampleSerde.logOf [.deleteFile 1] ++
        (sampleSerde.line (.deleteFile 2)).take 1 ++ sampleSerde.logOf more) =
          .ok (load ([.deleteFile 1] ++ more))) ↔ 1 = 0 := by
  refine load_torn_iff sampleSerde_lawful (fun r hr => ?_) ?_ (by decide +kernel)
  · rw [List.mem_singleton.mp hr]
    exact List.mem_cons_self
  · exact List.mem_cons_of_mem _ List.mem_cons_self

/-- One byte of a torn append makes the completed records unreadable. -/
theorem load_fails_on_torn :
    ¬ ∀ (j : SerdeJson) (R : Set ManifestRecord), j.Lawful R →
      ∀ records : List ManifestRecord, (∀ r ∈ records, r ∈ R) → ∀ torn ∈ R,
      ∀ cut < (j.line torn).length, ∀ more : List ManifestRecord, (∀ r ∈ more, r ∈ R) →
        loadText j (j.logOf records ++ (j.line torn).take cut ++ j.logOf more) =
          .ok (load (records ++ more)) := by
  intro h
  have hload := h sampleSerde sampleRecords sampleSerde_lawful [.deleteFile 1]
    (fun r hr => List.mem_singleton.mp hr ▸ List.mem_cons_self) (.deleteFile 2)
    (List.mem_cons_of_mem _ List.mem_cons_self) 1 (by decide +kernel) [] nofun
  exact absurd hload (by decide +kernel)

end Manifest

/-! ## Concurrent appends

Every flush task and every compaction appends through its own file handle. The file is opened for
appending, so a single write call puts its bytes at the end, but nothing keeps the calls of two
appends apart. -/

/-- An append in progress or finished: how many of its write calls were made. -/
structure AppendCall where
  record : ManifestRecord
  next : Nat
  deriving DecidableEq

namespace AppendCall

variable (j : SerdeJson) (call : AppendCall)

/-- All write calls were made. -/
def Finished : Prop := call.next = (j.appendWrites call.record).length

/-- Some write calls were made, and some were not. -/
def Midway : Prop := 0 < call.next ∧ call.next < (j.appendWrites call.record).length

instance : Decidable (call.Finished j) := inferInstanceAs (Decidable (_ = _))

instance : Decidable (call.Midway j) := inferInstanceAs (Decidable (_ ∧ _))

/-- What the append has written so far. -/
def written : Text := ((j.appendWrites call.record).take call.next).flatten

end AppendCall

/-- The file and the appends to it, in the order they began. -/
structure AppendLog where
  file : Text
  calls : List AppendCall

namespace AppendLog

open Manifest

inductive Action
  | begin (record : ManifestRecord)
  /-- The next write call of an append. -/
  | write (i : Nat)

/-- A file of completed appends, and no append begun. -/
def start (j : SerdeJson) (records : List ManifestRecord) : AppendLog where
  file := j.logOf records
  calls := []

def step (j : SerdeJson) (x : AppendLog) : Action → Option AppendLog
  | .begin record => some { x with calls := x.calls ++ [{ record, next := 0 }] }
  | .write i => do
      let call ← x.calls[i]?
      let chunk ← (j.appendWrites call.record)[call.next]?
      some
        { file := x.file ++ chunk
          calls := x.calls.set i { call with next := call.next + 1 } }

/-- No write call comes between the first and the last one of another append. -/
def Serial (j : SerdeJson) (x : AppendLog) : Action → Prop
  | .begin _ => True
  | .write i => ∀ k < x.calls.length, k ≠ i → ∀ call ∈ x.calls[k]?, ¬ call.Midway j

instance (j : SerdeJson) (x : AppendLog) : DecidablePred (Serial j x) := fun a =>
  match a with
  | .begin _ => isTrue trivial
  | .write i => inferInstanceAs
      (Decidable (∀ k < x.calls.length, k ≠ i → ∀ call ∈ x.calls[k]?, ¬ call.Midway j))

/-- The records of the finished appends. -/
def finishedRecords (j : SerdeJson) (x : AppendLog) : List ManifestRecord :=
  (x.calls.filter fun call => call.Finished j).map AppendCall.record

/-- The file holds the finished appends line by line, and at its end what the append in progress has
written, if there is one. -/
def Ordered (j : SerdeJson) (records : List ManifestRecord) (x : AppendLog) : Prop :=
  ∃ order : List ManifestRecord, order.Perm (x.finishedRecords j) ∧
    ∃ tail, x.file = j.logOf (records ++ order) ++ tail ∧
      ((∀ call ∈ x.calls, ¬ call.Midway j) ∧ tail = [] ∨
        ∃ call ∈ x.calls, call.Midway j ∧ tail = call.written j)

variable {j : SerdeJson} {x y : AppendLog} {records : List ManifestRecord}

/-- Replacing an element that a filter rejects. -/
theorem perm_filter_set {α : Type*} {p : α → Bool} {l : List α} {i : Nat} {a : α}
    (ha : l[i]? = some a) (hp : p a = false) (b : α) :
    ((l.set i b).filter p).Perm (if p b then b :: l.filter p else l.filter p) := by
  obtain ⟨hi, hget⟩ := List.getElem?_eq_some_iff.mp ha
  have hset : l.set i b = l.take i ++ b :: l.drop (i + 1) := by
    rw [List.set_eq_take_append_cons_drop, if_pos hi]
  have hsplit : l = l.take i ++ a :: l.drop (i + 1) := by
    rw [← hget, List.getElem_cons_drop, List.take_append_drop]
  have hold : l.filter p = (l.take i).filter p ++ (l.drop (i + 1)).filter p := by
    conv => lhs; rw [hsplit]
    rw [List.filter_append, List.filter_cons_of_neg (by simp [hp])]
  rw [hset, List.filter_append, hold]
  by_cases hb : p b
  · rw [List.filter_cons_of_pos hb, if_pos hb]
    exact List.perm_middle
  · rw [List.filter_cons_of_neg hb, if_neg hb]

/-- One more write call. -/
theorem written_succ {call : AppendCall} {chunk : Text}
    (hchunk : (j.appendWrites call.record)[call.next]? = some chunk) :
    ({ call with next := call.next + 1 } : AppendCall).written j = call.written j ++ chunk := by
  unfold AppendCall.written
  rw [List.take_add_one, hchunk, List.flatten_append]
  simp

/-- A finished append has written its line. -/
theorem written_of_finished {call : AppendCall} (h : call.Finished j) :
    call.written j = j.line call.record := by
  rw [AppendCall.written, h, List.take_length, SerdeJson.line]

/-- A beginning append changes neither the file nor what is finished. -/
theorem ordered_begin (h : Ordered j records x) (record : ManifestRecord) :
    Ordered j records { x with calls := x.calls ++ [{ record, next := 0 }] } := by
  obtain ⟨order, hperm, tail, hfile, htail⟩ := h
  have hunfinished : ¬ ({ record, next := 0 } : AppendCall).Finished j := by
    simp [AppendCall.Finished, SerdeJson.appendWrites]
  refine ⟨order, ?_, tail, hfile, ?_⟩
  · unfold finishedRecords
    rw [List.filter_append, List.filter_cons_of_neg (by simpa using hunfinished), List.filter_nil,
      List.append_nil]
    exact hperm
  · rcases htail with ⟨hnone, hnil⟩ | ⟨call, hcall, hmidway, htail⟩
    · refine Or.inl ⟨fun call hcall => ?_, hnil⟩
      rcases List.mem_append.mp hcall with hcall | hcall
      · exact hnone call hcall
      · rw [List.mem_singleton.mp hcall]
        exact fun hmidway => absurd hmidway.1 (lt_irrefl 0)
    · exact Or.inr ⟨call, List.mem_append_left _ hcall, hmidway, htail⟩

/-- When no other append is midway, the end of the file is what this one has written. -/
theorem tail_eq_written {tail : Text} {i : Nat} {call : AppendCall}
    (hget : x.calls[i]? = some call)
    (hunfinished : call.next < (j.appendWrites call.record).length)
    (hserial : Serial j x (.write i))
    (htail : (∀ call ∈ x.calls, ¬ call.Midway j) ∧ tail = [] ∨
      ∃ call ∈ x.calls, call.Midway j ∧ tail = call.written j) : tail = call.written j := by
  rcases htail with ⟨hnone, hnil⟩ | ⟨call', hcall', hmidway, htail⟩
  · have hzero : call.next = 0 := by
      by_contra hne
      exact hnone call (List.mem_of_getElem? hget) ⟨Nat.pos_of_ne_zero hne, hunfinished⟩
    rw [hnil, AppendCall.written, hzero]
    rfl
  · obtain ⟨k, hk⟩ := List.mem_iff_getElem?.mp hcall'
    by_cases hki : k = i
    · subst hki
      rw [htail, Option.some.inj (hk.symm.trans hget)]
    · exact absurd hmidway (hserial k (List.getElem?_eq_some_iff.mp hk).1 hki call' hk)

/-- **One step of a serial run** keeps the file a log with at most one append at its end. -/
theorem ordered_step (h : Ordered j records x) {a : Action} (hserial : Serial j x a)
    (hy : step j x a = some y) : Ordered j records y := by
  cases a with
  | begin record =>
      cases hy
      exact ordered_begin h record
  | write i =>
      obtain ⟨call, hget, hy⟩ := Option.bind_eq_some_iff.mp hy
      obtain ⟨chunk, hchunk, hy⟩ := Option.bind_eq_some_iff.mp hy
      cases hy
      obtain ⟨order, hperm, tail, hfile, htail⟩ := h
      obtain ⟨hlt, -⟩ := List.getElem?_eq_some_iff.mp hchunk
      have hwritten := tail_eq_written hget hlt hserial htail
      have hfilter := @perm_filter_set _ (fun call => decide (call.Finished j)) _ _ _ hget
        (decide_eq_false hlt.ne) { call with next := call.next + 1 }
      have hothers : ∀ c ∈ x.calls.set i { call with next := call.next + 1 },
          c = { call with next := call.next + 1 } ∨ ¬ c.Midway j := by
        intro c hc
        obtain ⟨k, hk⟩ := List.mem_iff_getElem?.mp hc
        rw [List.getElem?_set] at hk
        split at hk
        · split at hk
          · exact Or.inl (Option.some.inj hk).symm
          · exact absurd hk nofun
        · rename_i hik
          exact Or.inr (hserial k (List.getElem?_eq_some_iff.mp hk).1 (Ne.symm hik) c hk)
      by_cases hlast : call.next + 1 = (j.appendWrites call.record).length
      · -- the append is finished: its line joins the log
        have hfinished : ({ call with next := call.next + 1 } : AppendCall).Finished j := hlast
        refine ⟨order ++ [call.record], ?_, [], ?_, Or.inl ⟨fun c hc => ?_, rfl⟩⟩
        · rw [if_pos (decide_eq_true hfinished)] at hfilter
          refine (List.perm_append_singleton _ _).trans ?_
          exact (hperm.cons call.record).trans (hfilter.map AppendCall.record).symm
        · have hline := (written_succ hchunk).symm.trans (written_of_finished hfinished)
          rw [hfile, hwritten, List.append_assoc, hline, List.append_nil, ← List.append_assoc]
          simp [SerdeJson.logOf]
        · rcases hothers c hc with rfl | hmidway
          · exact fun hmidway => absurd hmidway.2 (by rw [hlast]; exact lt_irrefl _)
          · exact hmidway
      · -- it goes on: no other call is midway, so the tail is what it has written
        refine ⟨order, ?_, call.written j ++ chunk, by rw [hfile, hwritten, List.append_assoc],
          Or.inr ⟨_, List.mem_set (List.getElem?_eq_some_iff.mp hget).1 _, ⟨Nat.succ_pos _, ?_⟩,
            (written_succ hchunk).symm⟩⟩
        · have hunfinished : ¬ ({ call with next := call.next + 1 } : AppendCall).Finished j := hlast
          rw [if_neg (by simpa using hunfinished)] at hfilter
          exact hperm.trans (hfilter.map AppendCall.record).symm
        · exact lt_of_le_of_ne hlt hlast

/-- **Serial appends keep the log intact.** In a run whose appends do not interleave their write
calls, once all of them have finished the file holds each record on a line of its own, in some order,
and loads as these records. -/
theorem serial_appends_load (hrun : Reaches (step j) (Serial j) (start j records) x)
    (hdone : ∀ call ∈ x.calls, call.Finished j)
    (hj : j.Lawful {r | r ∈ records ++ x.calls.map AppendCall.record}) :
    ∃ order : List ManifestRecord, order.Perm (x.calls.map AppendCall.record) ∧
      x.file = j.logOf (records ++ order) ∧
      Manifest.loadText j x.file = .ok (Manifest.load (records ++ order)) := by
  have hstart : Ordered j records (start j records) :=
    ⟨[], List.Perm.refl _, [], by simp [start], Or.inl ⟨nofun, rfl⟩⟩
  obtain ⟨order, hperm, tail, hfile, htail⟩ :=
    hrun.invariant hstart fun _ _ _ h hserial hstep => ordered_step h hserial hstep
  have hall : x.finishedRecords j = x.calls.map AppendCall.record := by
    unfold finishedRecords
    rw [List.filter_eq_self.mpr fun call hcall => decide_eq_true (hdone call hcall)]
  rw [hall] at hperm
  have hnil : tail = [] := by
    rcases htail with ⟨-, hnil⟩ | ⟨call, hcall, hmidway, -⟩
    · exact hnil
    · exact absurd (hdone call hcall) hmidway.2.ne
  rw [hnil, List.append_nil] at hfile
  refine ⟨order, hperm, hfile, ?_⟩
  rw [hfile]
  refine Manifest.loadText_logOf hj fun r hr => ?_
  rcases List.mem_append.mp hr with hr | hr
  · exact List.mem_append_left _ hr
  · exact List.mem_append_right _ (hperm.mem_iff.mp hr)

/-- Two appends, the second begun before the first one writes. -/
def serialSchedule : List Action :=
  [.begin (.deleteFile 1), .begin (.deleteFile 2)] ++ List.replicate 16 (.write 1) ++
    List.replicate 16 (.write 0)

theorem serial_appends_load_sample :
    ∃ x, run (step sampleSerde) (Serial sampleSerde) (start sampleSerde []) serialSchedule = some x ∧
      ∃ order : List ManifestRecord, order.Perm (x.calls.map AppendCall.record) ∧
        x.file = sampleSerde.logOf ([] ++ order) ∧
        Manifest.loadText sampleSerde x.file = .ok (Manifest.load ([] ++ order)) := by
  have hrun : ((run (step sampleSerde) (Serial sampleSerde) (start sampleSerde [])
      serialSchedule).any fun x => decide (x.calls.map AppendCall.record =
        [.deleteFile 1, .deleteFile 2] ∧ ∀ call ∈ x.calls, call.Finished sampleSerde)) = true := by
    decide +kernel
  obtain ⟨x, hx, hcalls⟩ := (Option.any_eq_true _ _).mp hrun
  obtain ⟨hrecords, hdone⟩ := of_decide_eq_true hcalls
  refine ⟨x, hx, serial_appends_load (reaches_of_run hx) hdone ?_⟩
  rw [hrecords]
  exact Manifest.sampleSerde_lawful

/-- All of the first record, then the second record with its newline, then the newline of the
first. -/
def tornSchedule : List Action :=
  [.begin (.deleteFile 1), .begin (.deleteFile 2)] ++ List.replicate 15 (.write 0) ++
    List.replicate 16 (.write 1) ++ [.write 0]

/-- Appends that interleave their write calls leave two records on one line, which does not load. -/
theorem interleaved_appends_tear :
    ¬ ∀ (j : SerdeJson) (records : List ManifestRecord) (x : AppendLog),
      Reaches (step j) (fun _ _ => True) (start j records) x →
      (∀ call ∈ x.calls, call.Finished j) →
      j.Lawful {r | r ∈ records ++ x.calls.map AppendCall.record} →
      ∃ order : List ManifestRecord, order.Perm (x.calls.map AppendCall.record) ∧
        x.file = j.logOf (records ++ order) ∧
        Manifest.loadText j x.file = .ok (Manifest.load (records ++ order)) := by
  intro h
  have hrun : ((run (step sampleSerde) (fun _ _ => True) (start sampleSerde [])
      tornSchedule).any fun x => decide ((x.calls.map AppendCall.record =
        [.deleteFile 1, .deleteFile 2] ∧ ∀ call ∈ x.calls, call.Finished sampleSerde) ∧
        (Manifest.loadText sampleSerde x.file).isOk = false)) = true := by
    decide +kernel
  obtain ⟨x, hx, hcalls⟩ := (Option.any_eq_true _ _).mp hrun
  obtain ⟨⟨hrecords, hdone⟩, hload⟩ := of_decide_eq_true hcalls
  obtain ⟨order, -, -, hok⟩ := h sampleSerde [] x (reaches_of_run hx) hdone
    (by rw [hrecords]; exact Manifest.sampleSerde_lawful)
  rw [hok] at hload
  exact absurd hload nofun

end AppendLog

end LsmGraph
