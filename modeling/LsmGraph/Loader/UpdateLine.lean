import Mathlib.Data.List.TakeWhile
import LsmGraph.Library.Separated
import LsmGraph.BaseGraph.Derived
import LsmGraph.Snb.Http
import LsmGraph.Snb.Stored

/-! # Lines of an update stream

A line of `updateStream_0_*_{person,forum}.csv` has its columns between bars: two dates, the number of
the operation, and what that operation adds. `readLine` decodes a line as `import_update_stream_file`
and its `apply_add_*` do; `Update.columns` is the other direction, and `readLine_render` says that
it is one: whatever the texts, the ids and the lists of an update, its line is read as that update. -/

namespace LsmGraph

open Separated

namespace UpdateStream

/-! ## What a line adds -/

/-- An update with everything that its line says; the constructors are operations 1 to 8. -/
inductive Update
  | addPerson (p : Stored.PersonProps) (tags : List Int64) (studyAt workAt : List (Int64 × Int32))
  | likePost (person post date : Int64)
  | likeComment (person comment date : Int64)
  | addForum (f : Stored.ForumProps) (tags : List Int64)
  | joinForum (forum person date : Int64)
  | addPost (p : Stored.PostProps) (tags : List Int64)
  | addComment (c : Stored.CommentProps) (tags : List Int64)
  | know (person1 person2 date : Int64)
  deriving DecidableEq, Repr

/-- The update without the properties of its vertex. -/
def Update.toSnb : Update → SnbUpdate
  | addPerson p tags studyAt workAt => .addPerson p.id p.place tags studyAt workAt
  | likePost person post date => .likePost person post date
  | likeComment person comment date => .likeComment person comment date
  | addForum f tags => .addForum f.id f.moderator tags
  | joinForum forum person date => .joinForum forum person date
  | addPost p tags => .addPost p.id p.creator p.forumId p.place tags
  | addComment c tags => .addComment c.id c.creator c.place c.replyOfPost c.replyOfComment tags
  | know person1 person2 date => .know person1 person2 date

/-- The vertex of an update. -/
def Update.vertexRow : Update → Option Stored.VertexRow
  | addPerson p _ _ _ => some ⟨encodeVid .person p.id, .person p⟩
  | addForum f _ => some ⟨encodeVid .forum f.id, .forum f⟩
  | addPost p _ => some ⟨encodeVid .post p.id, .post p⟩
  | addComment c _ => some ⟨encodeVid .comment c.id, .comment c⟩
  | _ => none

/-! ## Reading -/

def field (parts : List (List Char)) (idx : Nat) : List Char := parts.getD idx []

def parseFieldI64 (parts : List (List Char)) (idx : Nat) : Except ReadFailure Int64 :=
  parseI64 (field parts idx)

/-- The numbers between the semicolons; a piece that is none, or is `-1`, is left out. -/
def parseIdList (raw : List Char) : List Int64 :=
  (raw.splitOn ';').filterMap fun s =>
    let s := trim s
    if s ≠ [] ∧ s ≠ ['-', '1'] then (parseI64 s).toOption else none

/-- The pairs between the semicolons; a piece that is none is left out. -/
def parseOrgYearList (raw : List Char) : List (Int64 × Int32) :=
  (raw.splitOn ';').filterMap fun item => do
    let (org, year) ← Http.splitOnce ',' (trim item)
    let org ← (parseI64 org).toOption
    let year ← (parseI32 year).toOption
    some (org, year)

def readPerson (p : List (List Char)) : Except ReadFailure Stored.PersonProps := do
  let id ← parseFieldI64 p 3
  let birthday ← parseFieldI64 p 7
  let creationDate ← parseFieldI64 p 8
  let place ← parseFieldI64 p 11
  .ok
    { id, firstName := .ofList (field p 4), lastName := .ofList (field p 5)
      gender := .ofList (field p 6), birthday, creationDate, locationIp := .ofList (field p 9)
      browserUsed := .ofList (field p 10), place, language := .ofList (field p 12)
      email := .ofList (field p 13) }

def readForum (p : List (List Char)) : Except ReadFailure Stored.ForumProps := do
  let id ← parseFieldI64 p 3
  let creationDate ← parseFieldI64 p 5
  let moderator ← parseFieldI64 p 6
  .ok { id, title := .ofList (field p 4), creationDate, moderator }

def readPost (p : List (List Char)) : Except ReadFailure Stored.PostProps := do
  let id ← parseFieldI64 p 3
  let creationDate ← parseFieldI64 p 5
  let length ← parseFieldI64 p 10
  let creator ← parseFieldI64 p 11
  let forumId ← parseFieldI64 p 12
  let place ← parseFieldI64 p 13
  .ok
    { id, imageFile := .ofList (field p 4), creationDate, locationIp := .ofList (field p 6)
      browserUsed := .ofList (field p 7), language := .ofList (field p 8)
      content := .ofList (field p 9), length, creator, forumId, place }

def readComment (p : List (List Char)) : Except ReadFailure Stored.CommentProps := do
  let id ← parseFieldI64 p 3
  let replyOfPost ← parseOptionalI64 (.ofList (field p 11))
  let replyOfComment ← parseOptionalI64 (.ofList (field p 12))
  let creationDate ← parseFieldI64 p 4
  let length ← parseFieldI64 p 8
  let creator ← parseFieldI64 p 9
  let place ← parseFieldI64 p 10
  .ok
    { id, creationDate, locationIp := .ofList (field p 5), browserUsed := .ofList (field p 6)
      content := .ofList (field p 7), length, creator, place, replyOfPost, replyOfComment }

/-- The two ids and the date of operations 2, 3, 5 and 8. -/
def readBinary (p : List (List Char)) : Except ReadFailure (Int64 × Int64 × Int64) := do
  let src ← parseFieldI64 p 3
  let dst ← parseFieldI64 p 4
  let date ← parseFieldI64 p 5
  .ok (src, dst, date)

/-- The update of a line with these columns; a line with another operation has none. -/
def readUpdate (p : List (List Char)) : Except ReadFailure (Option Update) :=
  match String.ofList (field p 2) with
  | "1" => do
      let person ← readPerson p
      .ok (some (.addPerson person (parseIdList (field p 14)) (parseOrgYearList (field p 15))
        (parseOrgYearList (field p 16))))
  | "2" => do
      let (person, post, date) ← readBinary p
      .ok (some (.likePost person post date))
  | "3" => do
      let (person, comment, date) ← readBinary p
      .ok (some (.likeComment person comment date))
  | "4" => do
      let forum ← readForum p
      .ok (some (.addForum forum (parseIdList (field p 7))))
  | "5" => do
      let (forum, person, date) ← readBinary p
      .ok (some (.joinForum forum person date))
  | "6" => do
      let post ← readPost p
      .ok (some (.addPost post (parseIdList (field p 14))))
  | "7" => do
      let comment ← readComment p
      .ok (some (.addComment comment (parseIdList (field p 13))))
  | "8" => do
      let (person1, person2, date) ← readBinary p
      .ok (some (.know person1 person2 date))
  | _ => .ok none

/-- What a line is: a blank one or one of fewer than three columns is not counted as a row. -/
inductive Line
  | uncounted
  | row (update : Option Update)
  deriving DecidableEq, Repr

def readLine (line : List Char) : Except ReadFailure Line :=
  if trim line = [] then .ok .uncounted
  else
    let parts := line.splitOn '|'
    if parts.length < 3 then .ok .uncounted
    else do
      let update ← readUpdate parts
      .ok (.row update)

/-! ## Writing -/

/-- The decimal text of a number. -/
def decimalText (v : Int) : List Char :=
  if v < 0 then '-' :: Nat.toDigits 10 v.natAbs else Nat.toDigits 10 v.natAbs

def textI64 (v : Int64) : List Char := decimalText v.toInt

def textI32 (v : Int32) : List Char := decimalText v.toInt

def textOptionalI64 : Option Int64 → List Char
  | none => []
  | some v => textI64 v

def textIdList (ids : List Int64) : List Char := joinWith ';' (ids.map textI64)

def textOrgYear (item : Int64 × Int32) : List Char := textI64 item.1 ++ ',' :: textI32 item.2

def textOrgYearList (items : List (Int64 × Int32)) : List Char := joinWith ';' (items.map textOrgYear)

/-- The columns of an update from the number of its operation on. -/
def Update.columns : Update → List (List Char)
  | addPerson p tags studyAt workAt =>
      [['1'], textI64 p.id, p.firstName.toList, p.lastName.toList, p.gender.toList,
        textI64 p.birthday, textI64 p.creationDate, p.locationIp.toList, p.browserUsed.toList,
        textI64 p.place, p.language.toList, p.email.toList, textIdList tags, textOrgYearList studyAt,
        textOrgYearList workAt]
  | likePost person post date => [['2'], textI64 person, textI64 post, textI64 date]
  | likeComment person comment date => [['3'], textI64 person, textI64 comment, textI64 date]
  | addForum f tags =>
      [['4'], textI64 f.id, f.title.toList, textI64 f.creationDate, textI64 f.moderator,
        textIdList tags]
  | joinForum forum person date => [['5'], textI64 forum, textI64 person, textI64 date]
  | addPost p tags =>
      [['6'], textI64 p.id, p.imageFile.toList, textI64 p.creationDate, p.locationIp.toList,
        p.browserUsed.toList, p.language.toList, p.content.toList, textI64 p.length,
        textI64 p.creator, textI64 p.forumId, textI64 p.place, textIdList tags]
  | addComment c tags =>
      [['7'], textI64 c.id, textI64 c.creationDate, c.locationIp.toList, c.browserUsed.toList,
        c.content.toList, textI64 c.length, textI64 c.creator, textI64 c.place,
        textOptionalI64 c.replyOfPost, textOptionalI64 c.replyOfComment, textIdList tags]
  | know person1 person2 date => [['8'], textI64 person1, textI64 person2, textI64 date]

/-- A line with the two dates that stand before every operation. -/
structure StampedUpdate where
  date : List Char
  dependantDate : List Char
  update : Update

def StampedUpdate.render (u : StampedUpdate) : List Char :=
  joinWith '|' (u.date :: u.dependantDate :: u.update.columns)

/-- The texts of an update. -/
def Update.texts : Update → List (List Char)
  | addPerson p _ _ _ =>
      [p.firstName.toList, p.lastName.toList, p.gender.toList, p.locationIp.toList,
        p.browserUsed.toList, p.language.toList, p.email.toList]
  | addForum f _ => [f.title.toList]
  | addPost p _ =>
      [p.imageFile.toList, p.locationIp.toList, p.browserUsed.toList, p.language.toList,
        p.content.toList]
  | addComment c _ => [c.locationIp.toList, c.browserUsed.toList, c.content.toList]
  | _ => []

/-- The ids of which an update may have none or several. -/
def Update.listedIds : Update → List Int64
  | addPerson _ tags _ _ => tags
  | addForum _ tags => tags
  | addPost _ tags => tags
  | addComment c tags => c.replyOfPost.toList ++ c.replyOfComment.toList ++ tags
  | _ => []

/-- A character that ends a column or a line. -/
def IsMark (c : Char) : Prop := c = '|' ∨ c = '\n'

instance : DecidablePred IsMark := fun _ => instDecidableOr

def Unmarked (t : List Char) : Prop := ∀ c ∈ t, ¬IsMark c

instance : DecidablePred Unmarked := fun t => List.decidableBAll (fun c => ¬IsMark c) t

/-- Nothing in the update looks like a mark, or like the `-1` that stands for no id. -/
structure StampedUpdate.Writable (u : StampedUpdate) : Prop where
  text : ∀ t ∈ u.date :: u.dependantDate :: u.update.texts, Unmarked t
  id : ∀ v ∈ u.update.listedIds, v ≠ -1

/-! ## Numbers and lists -/

/-- The characters of a number. -/
def numeric : List Char := ['0', '1', '2', '3', '4', '5', '6', '7', '8', '9', '-']

theorem mem_numeric_of_isDigit {c : Char} (h : c.isDigit = true) : c ∈ numeric := by
  rw [Char.isDigit, Bool.and_eq_true, decide_eq_true_iff, decide_eq_true_iff] at h
  have hlo : 48 ≤ c.toNat := h.1
  have hhi : c.toNat ≤ 57 := h.2
  have hc : Char.ofNat c.toNat = c := Char.ofNat_toNat c
  generalize c.toNat = n at hlo hhi hc
  have hdigits : ∀ n : Fin 58, 48 ≤ n.val → Char.ofNat n.val ∈ numeric := by decide
  exact hc ▸ hdigits ⟨n, Nat.lt_succ_of_le hhi⟩ hlo

theorem mem_numeric_of_mem_decimalText {v : Int} {c : Char} (h : c ∈ decimalText v) :
    c ∈ numeric := by
  have hdigits : c ∈ Nat.toDigits 10 v.natAbs → c ∈ numeric := fun h =>
    mem_numeric_of_isDigit (Nat.isDigit_of_mem_toDigits (by decide) (by decide) h)
  rw [decimalText] at h
  split at h
  · rcases List.mem_cons.mp h with rfl | h
    · decide
    · exact hdigits h
  · exact hdigits h

theorem decimalText_ne_nil (v : Int) : decimalText v ≠ [] := by
  rw [decimalText]
  split
  · exact List.cons_ne_nil _ _
  · exact Nat.toDigits_ne_nil

/-- A number is read back. -/
theorem parseI64Text_decimalText {v : Int} (hlo : -2 ^ 63 ≤ v) (hhi : v < 2 ^ 63) :
    Base.parseI64Text (decimalText v) = some v := by
  have hrange : (-2 ^ 63 ≤ v && v < 2 ^ 63) = true := by
    rw [Bool.and_eq_true, decide_eq_true_iff, decide_eq_true_iff]
    exact ⟨hlo, hhi⟩
  rw [decimalText]
  split
  · rename_i hneg
    simp only [Base.parseI64Text]
    rw [Base.parseDigits_toDigits]
    have habs : -(v.natAbs : Int) = v := by omega
    show (some (-(v.natAbs : Int))).filter (fun v => -2 ^ 63 ≤ v && v < 2 ^ 63) = some v
    rw [habs]
    exact Option.filter_some.trans (if_pos hrange)
  · rename_i hpos
    have hnat : v.natAbs < 2 ^ 63 := by omega
    have hparse := Base.parseI64Text_decimal hnat
    rw [Base.decimal, String.toList_ofList, Int.natCast_natAbs, abs_of_nonneg (by omega)] at hparse
    exact hparse

@[simp] theorem parseI64_textI64 (v : Int64) : parseI64 (textI64 v) = .ok v := by
  rw [parseI64, textI64, parseI64Text_decimalText (Int64.le_toInt v) (Int64.toInt_lt v)]
  exact congrArg Except.ok (Int64.ofInt_toInt v)

@[simp] theorem parseI32_textI32 (v : Int32) : parseI32 (textI32 v) = .ok v := by
  have hlo : -2 ^ 31 ≤ v.toInt := Int32.le_toInt v
  have hhi : v.toInt < 2 ^ 31 := Int32.toInt_lt v
  have hrange : (-2 ^ 31 ≤ v.toInt && v.toInt < 2 ^ 31) = true := by
    rw [Bool.and_eq_true, decide_eq_true_iff, decide_eq_true_iff]
    exact ⟨hlo, hhi⟩
  rw [parseI32, textI32, parseI64Text_decimalText (by omega) (by omega), Option.filter_some,
    if_pos hrange]
  exact congrArg Except.ok (Int32.ofInt_toInt v)

theorem textI64_eq_iff {v w : Int64} : textI64 v = textI64 w ↔ v = w := by
  refine ⟨fun h => ?_, fun h => h ▸ rfl⟩
  have hparse := parseI64_textI64 v
  rw [h, parseI64_textI64] at hparse
  exact (Except.ok.inj hparse).symm

/-- Without blanks there is nothing to trim. -/
theorem trim_eq_self {raw : List Char} (h : ∀ c ∈ raw, isWhitespace c = false) : trim raw = raw := by
  have hdrop : ∀ l : List Char, (∀ c ∈ l, isWhitespace c = false) → l.dropWhile isWhitespace = l := by
    intro l hl
    cases l with
    | nil => rfl
    | cons c l => exact List.dropWhile_cons_of_neg (by simp [hl c List.mem_cons_self])
  rw [trim, hdrop raw h, hdrop raw.reverse fun c hc => h c (List.mem_reverse.mp hc),
    List.reverse_reverse]

theorem isWhitespace_of_mem_numeric : ∀ c ∈ numeric, isWhitespace c = false := by
  have hall : numeric.all (fun c => !isWhitespace c) = true := by decide
  simpa using hall

theorem trim_textI64 (v : Int64) : trim (textI64 v) = textI64 v :=
  trim_eq_self fun c hc => isWhitespace_of_mem_numeric c (mem_numeric_of_mem_decimalText hc)

theorem notMem_textI64 {c : Char} (hc : c ∉ numeric) (v : Int64) : c ∉ textI64 v :=
  fun h => hc (mem_numeric_of_mem_decimalText h)

theorem textI64_ne_neg_one {v : Int64} (h : v ≠ -1) : textI64 v ≠ ['-', '1'] :=
  fun heq => h (textI64_eq_iff.mp (heq.trans (by decide)))

@[simp] theorem parseOptionalI64_textOptionalI64 {v : Option Int64} (h : ∀ x ∈ v, x ≠ -1) :
    parseOptionalI64 (.ofList (textOptionalI64 v)) = .ok v := by
  cases v with
  | none => decide
  | some v =>
      have hne : ¬(textI64 v = [] ∨ textI64 v = ['-', '1']) :=
        not_or.mpr ⟨decimalText_ne_nil _, textI64_ne_neg_one (h v rfl)⟩
      rw [parseOptionalI64, String.toList_ofList, textOptionalI64, trim_textI64, if_neg hne,
        parseI64_textI64]
      rfl

/-- A list of pieces that are read back one by one. -/
theorem filterMap_map_eq {α β : Type} {f : α → β} {g : β → Option α} {l : List α}
    (h : ∀ a ∈ l, g (f a) = some a) : (l.map f).filterMap g = l := by
  rw [List.filterMap_map]
  exact (List.filterMap_congr h).trans List.filterMap_some

@[simp] theorem parseIdList_textIdList {ids : List Int64} (h : ∀ v ∈ ids, v ≠ -1) :
    parseIdList (textIdList ids) = ids := by
  by_cases hnil : ids = []
  · subst hnil
    decide
  · have hpieces : ∀ p ∈ ids.map textI64, ';' ∉ p := by
      intro p hp
      obtain ⟨v, -, rfl⟩ := List.mem_map.mp hp
      exact notMem_textI64 (by decide) v
    have hsplit : (textIdList ids).splitOn ';' = ids.map textI64 :=
      List.splitOn_intercalate ';' hpieces (mt List.map_eq_nil_iff.mp hnil)
    rw [parseIdList, hsplit]
    refine filterMap_map_eq fun v hv => ?_
    simp only [trim_textI64]
    rw [if_pos ⟨decimalText_ne_nil _, textI64_ne_neg_one (h v hv)⟩, parseI64_textI64]
    rfl

theorem splitOnce_append_cons {c : Char} {l : List Char} (h : c ∉ l) (r : List Char) :
    Http.splitOnce c (l ++ c :: r) = some (l, r) := by
  have hne : ∀ x ∈ l, decide (x ≠ c) = true := fun x hx =>
    decide_eq_true fun heq => h (heq ▸ hx)
  rw [Http.splitOnce, if_pos (List.mem_append_right _ List.mem_cons_self),
    List.takeWhile_append_of_pos hne, List.dropWhile_append_of_pos hne]
  simp

theorem mem_numeric_or_of_mem_textOrgYear {item : Int64 × Int32} {c : Char}
    (h : c ∈ textOrgYear item) : c ∈ numeric ∨ c = ',' := by
  rw [textOrgYear, List.mem_append, List.mem_cons] at h
  rcases h with horg | rfl | hyear
  · exact Or.inl (mem_numeric_of_mem_decimalText horg)
  · exact Or.inr rfl
  · exact Or.inl (mem_numeric_of_mem_decimalText hyear)

@[simp] theorem parseOrgYearList_textOrgYearList (items : List (Int64 × Int32)) :
    parseOrgYearList (textOrgYearList items) = items := by
  by_cases hnil : items = []
  · subst hnil
    decide
  · have hpieces : ∀ p ∈ items.map textOrgYear, ';' ∉ p := by
      intro p hp hmem
      obtain ⟨item, -, rfl⟩ := List.mem_map.mp hp
      rcases mem_numeric_or_of_mem_textOrgYear hmem with hnum | hcomma
      · exact absurd hnum (by decide)
      · exact absurd hcomma (by decide)
    have hsplit : (textOrgYearList items).splitOn ';' = items.map textOrgYear :=
      List.splitOn_intercalate ';' hpieces (mt List.map_eq_nil_iff.mp hnil)
    rw [parseOrgYearList, hsplit]
    refine filterMap_map_eq fun item _ => ?_
    have htrim : trim (textOrgYear item) = textOrgYear item := by
      refine trim_eq_self fun c hc => ?_
      rcases mem_numeric_or_of_mem_textOrgYear hc with hnum | rfl
      · exact isWhitespace_of_mem_numeric c hnum
      · decide
    have hsplit : Http.splitOnce ',' (textOrgYear item) = some (textI64 item.1, textI32 item.2) :=
      splitOnce_append_cons (notMem_textI64 (by decide) _) _
    rw [htrim, hsplit]
    simp only [Option.bind_eq_bind, Option.bind_some, parseI64_textI64, parseI32_textI32]
    rfl

/-! ## A line is read as its update -/

theorem ok_bind {α β : Type} (a : α) (f : α → Except ReadFailure β) :
    (Except.ok a >>= f) = f a := rfl

section Columns

variable (date dependantDate : List Char)

/-- The columns of an update are read as that update. -/
theorem readUpdate_columns {u : Update} (h : ∀ v ∈ u.listedIds, v ≠ -1) :
    readUpdate (date :: dependantDate :: u.columns) = .ok (some u) := by
  cases u with
  | addPerson p tags studyAt workAt =>
      have htags : parseIdList (textIdList tags) = tags := parseIdList_textIdList h
      simp [readUpdate, readPerson, parseFieldI64, field, Update.columns, ok_bind, htags]
  | likePost person post date =>
      simp [readUpdate, readBinary, parseFieldI64, field, Update.columns, ok_bind]
  | likeComment person comment date =>
      simp [readUpdate, readBinary, parseFieldI64, field, Update.columns, ok_bind]
  | addForum f tags =>
      have htags : parseIdList (textIdList tags) = tags := parseIdList_textIdList h
      simp [readUpdate, readForum, parseFieldI64, field, Update.columns, ok_bind, htags]
  | joinForum forum person date =>
      simp [readUpdate, readBinary, parseFieldI64, field, Update.columns, ok_bind]
  | addPost p tags =>
      have htags : parseIdList (textIdList tags) = tags := parseIdList_textIdList h
      simp [readUpdate, readPost, parseFieldI64, field, Update.columns, ok_bind, htags]
  | addComment c tags =>
      obtain ⟨hreply, htags⟩ := List.forall_mem_append.mp h
      obtain ⟨hpost, hcomment⟩ := List.forall_mem_append.mp hreply
      have hpost : ∀ v ∈ c.replyOfPost, v ≠ -1 := fun v hv => hpost v (Option.mem_toList.mpr hv)
      have hcomment : ∀ v ∈ c.replyOfComment, v ≠ -1 := fun v hv =>
        hcomment v (Option.mem_toList.mpr hv)
      simp [readUpdate, readComment, parseFieldI64, field, Update.columns, ok_bind,
        parseOptionalI64_textOptionalI64 hpost, parseOptionalI64_textOptionalI64 hcomment,
        parseIdList_textIdList htags]
  | know person1 person2 date =>
      simp [readUpdate, readBinary, parseFieldI64, field, Update.columns, ok_bind]

end Columns

theorem unmarked_numeric : Unmarked numeric := by decide

@[simp] theorem unmarked_textI64 (v : Int64) : Unmarked (textI64 v) := fun _ hc =>
  unmarked_numeric _ (mem_numeric_of_mem_decimalText hc)

@[simp] theorem unmarked_textOptionalI64 (v : Option Int64) : Unmarked (textOptionalI64 v) := by
  cases v with
  | none => exact fun c hc => absurd hc List.not_mem_nil
  | some v => exact unmarked_textI64 v

/-- Joining with another character makes no marks. -/
theorem unmarked_joinWith {sep : Char} (hsep : ¬IsMark sep) {pieces : List (List Char)}
    (h : ∀ p ∈ pieces, Unmarked p) : Unmarked (joinWith sep pieces) := by
  intro c hc
  rcases mem_joinWith hc with rfl | ⟨p, hp, hcp⟩
  · exact hsep
  · exact h p hp c hcp

@[simp] theorem unmarked_textIdList (ids : List Int64) : Unmarked (textIdList ids) := by
  refine unmarked_joinWith (by decide) fun p hp => ?_
  obtain ⟨v, -, rfl⟩ := List.mem_map.mp hp
  exact unmarked_textI64 v

@[simp] theorem unmarked_textOrgYearList (items : List (Int64 × Int32)) :
    Unmarked (textOrgYearList items) := by
  refine unmarked_joinWith (by decide) fun p hp => ?_
  obtain ⟨item, -, rfl⟩ := List.mem_map.mp hp
  intro c hc
  rcases mem_numeric_or_of_mem_textOrgYear hc with hnum | rfl
  · exact unmarked_numeric c hnum
  · decide

/-- No column of an update holds a mark, if none of its texts does. -/
theorem unmarked_columns {u : Update} (h : ∀ t ∈ u.texts, Unmarked t) :
    ∀ t ∈ u.columns, Unmarked t := by
  cases u <;> simp_all [Update.columns, Update.texts] <;> decide

/-- A line holds no line feed, and what stands between its bars are its columns. -/
theorem StampedUpdate.Writable.splitOn_render {u : StampedUpdate} (h : u.Writable) :
    u.render.splitOn '|' = u.date :: u.dependantDate :: u.update.columns ∧ '\n' ∉ u.render := by
  have hunmarked : ∀ t ∈ u.date :: u.dependantDate :: u.update.columns, Unmarked t := by
    obtain ⟨hdate, hrest⟩ := List.forall_mem_cons.mp h.text
    obtain ⟨hdependant, htexts⟩ := List.forall_mem_cons.mp hrest
    exact List.forall_mem_cons.mpr ⟨hdate, List.forall_mem_cons.mpr ⟨hdependant,
      unmarked_columns htexts⟩⟩
  refine ⟨List.splitOn_intercalate '|' (fun t ht hmem => hunmarked t ht _ hmem (Or.inl rfl))
    (List.cons_ne_nil _ _), fun hmem => ?_⟩
  rcases mem_joinWith hmem with heq | ⟨t, ht, hc⟩
  · exact absurd heq (by decide)
  · exact hunmarked t ht _ hc (Or.inr rfl)

/-- The columns of an update start with the number of its operation. -/
theorem columns_eq_cons (u : Update) : ∃ c ∈ numeric, ∃ rest, u.columns = [c] :: rest := by
  cases u <;> exact ⟨_, by decide, _, rfl⟩

/-- Trimming keeps what is not blank. -/
theorem trim_ne_nil {raw : List Char} {c : Char} (hc : c ∈ raw) (h : isWhitespace c = false) :
    trim raw ≠ [] := by
  intro hnil
  rw [trim, List.reverse_eq_nil_iff, List.dropWhile_eq_nil_iff] at hnil
  have hall : ∀ x ∈ raw.dropWhile isWhitespace, isWhitespace x = true := fun x hx =>
    hnil x (List.mem_reverse.mpr hx)
  cases hdrop : raw.dropWhile isWhitespace with
  | nil =>
      rw [List.dropWhile_eq_nil_iff.mp hdrop c hc] at h
      cases h
  | cons x l =>
      have hx : isWhitespace x = true := hall x (hdrop ▸ List.mem_cons_self)
      have hhead := List.head?_dropWhile_not isWhitespace raw
      rw [hdrop] at hhead
      simp [hx] at hhead

/-- **A written line is read as its update.** -/
theorem readLine_render {u : StampedUpdate} (h : u.Writable) :
    readLine u.render = .ok (.row (some u.update)) := by
  obtain ⟨hsplit, -⟩ := h.splitOn_render
  obtain ⟨c, hc, rest, hcolumns⟩ := columns_eq_cons u.update
  have hmem : c ∈ u.render := by
    rw [StampedUpdate.render, hcolumns, joinWith_cons_cons, joinWith_cons_cons]
    have hop : c ∈ joinWith '|' ([c] :: rest) := by
      cases rest with
      | nil => simp [joinWith]
      | cons p rest =>
          rw [joinWith_cons_cons]
          exact List.mem_append_left _ List.mem_cons_self
    exact List.mem_append_right _ (List.mem_cons_of_mem _ (List.mem_append_right _
      (List.mem_cons_of_mem _ hop)))
  have hlength : ¬(u.date :: u.dependantDate :: u.update.columns).length < 3 := by
    rw [hcolumns]
    simp
  rw [readLine, if_neg (trim_ne_nil hmem (isWhitespace_of_mem_numeric c hc))]
  dsimp only
  rw [hsplit, if_neg hlength, readUpdate_columns _ _ h.id]
  rfl

end UpdateStream

end LsmGraph
