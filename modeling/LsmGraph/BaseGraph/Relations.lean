import LsmGraph.BaseGraph.Csr
import Mathlib.Data.List.AList

/-! # The bidirectional relations of a base graph

The part of `base_graph/builder.rs` that turns an edge file into the CSRs `NAME/OUT` and `NAME/IN`.
Columns are found by name (`idx`), texts become external ids (`parseI64`), and external ids become
local ones through the map of a label (`IdMap`), whose local ids all lie below its length. Read back,
the two CSRs are the rows of the file by source and by destination (`readsAs_buildBidirectionalCsr`),
provided that the two columns have different names: both columns of `person_knows_person` are called
`Person.id`, `idx` finds the first of them twice, and the relation KNOWS relates every person to
itself (`multiEdges_iff`). -/

namespace LsmGraph

open KeyedSort

namespace Base

/-! ## Reading a CSV file -/

inductive BuildError
  /-- The reader of a CSV file fails. -/
  | csv
  | missingColumn (name : String) (header : List String)
  | emptyI64 (idx : Nat)
  | parseInt (value : String)
  | missingExternalId (external : Int)
  deriving DecidableEq, Repr

/-- What the reader of a CSV file yields. -/
structure CsvFile where
  header : List String
  records : List (Except BuildError (List String))

/-- Every record of a file goes through `f`, until one of them fails. -/
def scanCsv {σ : Type} (file : CsvFile) (f : List String → List String → σ → Except BuildError σ)
    (init : σ) : Except BuildError σ :=
  file.records.foldlM
    (fun state record => do
      let record ← record
      f file.header record state) init

/-- The position of the first column of that name. -/
def idx (header : List String) (name : String) : Except BuildError Nat :=
  match header.findIdx? fun candidate => candidate == name with
  | some i => .ok i
  | none => .error (.missingColumn name header)

/-- A nonempty sequence of decimal digits. -/
def parseDigits (digits : List Char) : Option Nat :=
  if digits = [] ∨ digits.any (fun c => !c.isDigit) then none
  else some (digits.foldl (fun n c => n * 10 + (c.toNat - '0'.toNat)) 0)

/-- `str::parse::<i64>`: an optional sign and digits, in range. -/
def parseI64Text (value : List Char) : Option Int :=
  let signed : Option Int :=
    match value with
    | '-' :: digits => (parseDigits digits).map fun n => -(n : Int)
    | '+' :: digits => (parseDigits digits).map fun n => (n : Int)
    | digits => (parseDigits digits).map fun n => (n : Int)
  signed.filter fun v => -2 ^ 63 ≤ v && v < 2 ^ 63

def parseI64 (record : List String) (idx : Nat) : Except BuildError Int :=
  let value := record.getD idx ""
  if value = "" then .error (.emptyI64 idx)
  else
    match parseI64Text value.toList with
    | some v => .ok v
    | none => .error (.parseInt value)

/-! ## Local ids -/

/-- The local ids of one label; all of them lie below the number of rows. -/
structure IdMap where
  externalToLocal : AList fun _ : Int => UInt32
  orderedPairs : List (Int × UInt32)
  lt_len : ∀ external localId, externalToLocal.lookup external = some localId →
    localId.toNat < orderedPairs.length

namespace IdMap

def get (m : IdMap) (external : Int) : Except BuildError UInt32 :=
  match m.externalToLocal.lookup external with
  | some localId => .ok localId
  | none => .error (.missingExternalId external)

def len (m : IdMap) : Nat := m.orderedPairs.length

def empty : IdMap where
  externalToLocal := ∅
  orderedPairs := []
  lt_len external localId h := by
    rw [AList.lookup_empty] at h
    cases h

/-- The next row of a label's file: its local id is its number as a `u32`. -/
def push (m : IdMap) (external : Int) : IdMap where
  externalToLocal := m.externalToLocal.insert external (UInt32.ofNat m.orderedPairs.length)
  orderedPairs := m.orderedPairs ++ [(external, UInt32.ofNat m.orderedPairs.length)]
  lt_len external' localId h := by
    rw [List.length_append, List.length_singleton]
    by_cases heq : external' = external
    · rw [heq, AList.lookup_insert, Option.some.injEq] at h
      rw [← h, UInt32.toNat_ofNat']
      exact Nat.lt_succ_of_le (Nat.mod_le _ _)
    · rw [AList.lookup_insert_ne heq] at h
      exact Nat.lt_succ_of_lt (m.lt_len external' localId h)

theorem lt_len_of_get {m : IdMap} {external : Int} {localId : UInt32}
    (h : m.get external = .ok localId) : localId.toNat < m.len := by
  rw [get] at h
  cases hlookup : m.externalToLocal.lookup external with
  | none =>
      rw [hlookup] at h
      cases h
  | some found =>
      rw [hlookup] at h
      cases h
      exact m.lt_len external _ hlookup

end IdMap

def loadIdMap (file : CsvFile) (idCol : String) : Except BuildError IdMap :=
  scanCsv file
    (fun header record out => do
      let external ← parseI64 record (← idx header idCol)
      .ok (out.push external)) IdMap.empty

structure IdMaps where
  person : IdMap
  post : IdMap
  comment : IdMap
  forum : IdMap

/-! ## The relations -/

/-- The two CSRs of a relation. -/
structure Bidirectional where
  outFiles : CsrFiles
  inFiles : CsrFiles

def buildBidirectionalCsr (file : CsvFile) (numSrc numDst : Nat) (srcMap dstMap : IdMap)
    (srcCol dstCol : String) : Except BuildError Bidirectional := do
  let (outEdges, inEdges) ← scanCsv file
    (fun header record edges => do
      let src ← srcMap.get (← parseI64 record (← idx header srcCol))
      let dst ← dstMap.get (← parseI64 record (← idx header dstCol))
      .ok (edges.1 ++ [(src, dst)], edges.2 ++ [(dst, src)])) (([], []) : List Edge × List Edge)
  .ok { outFiles := (writeCsr numSrc outEdges).1, inFiles := (writeCsr numDst inEdges).1 }

/-- The relations of `build_multi_edges`. -/
inductive MultiEdge
  | knows
  | personLikesPost
  | personLikesComment
  | forumHasMember
  deriving DecidableEq, Repr

namespace MultiEdge

def path : MultiEdge → String
  | knows => "dynamic/person_knows_person_0_0.csv"
  | personLikesPost => "dynamic/person_likes_post_0_0.csv"
  | personLikesComment => "dynamic/person_likes_comment_0_0.csv"
  | forumHasMember => "dynamic/forum_hasMember_person_0_0.csv"

def srcMap (maps : IdMaps) : MultiEdge → IdMap
  | forumHasMember => maps.forum
  | _ => maps.person

def dstMap (maps : IdMaps) : MultiEdge → IdMap
  | knows => maps.person
  | personLikesPost => maps.post
  | personLikesComment => maps.comment
  | forumHasMember => maps.person

def srcCol : MultiEdge → String
  | forumHasMember => "Forum.id"
  | _ => "Person.id"

def dstCol : MultiEdge → String
  | knows => "Person.id"
  | personLikesPost => "Post.id"
  | personLikesComment => "Comment.id"
  | forumHasMember => "Person.id"

end MultiEdge

/-- The call of `build_bidirectional_csr` for one relation. -/
def buildRelation (csvRoot : String → CsvFile) (maps : IdMaps) (rel : MultiEdge) :
    Except BuildError Bidirectional :=
  buildBidirectionalCsr (csvRoot rel.path) (rel.srcMap maps).len (rel.dstMap maps).len
    (rel.srcMap maps) (rel.dstMap maps) rel.srcCol rel.dstCol

/-- The files below the CSV root are given by their paths. -/
def buildMultiEdges (csvRoot : String → CsvFile) (maps : IdMaps) :
    Except BuildError (MultiEdge → Bidirectional) := do
  let knows ← buildRelation csvRoot maps .knows
  let personLikesPost ← buildRelation csvRoot maps .personLikesPost
  let personLikesComment ← buildRelation csvRoot maps .personLikesComment
  let forumHasMember ← buildRelation csvRoot maps .forumHasMember
  .ok fun rel =>
    match rel with
    | .knows => knows
    | .personLikesPost => personLikesPost
    | .personLikesComment => personLikesComment
    | .forumHasMember => forumHasMember

/-! ## Rows -/

theorem bind_eq_ok {ε α β : Type} {x : Except ε α} {f : α → Except ε β} {b : β} :
    x >>= f = .ok b ↔ ∃ a, x = .ok a ∧ f a = .ok b := by
  cases x with
  | error e => exact iff_of_false (fun h => by cases h) fun ⟨_, h, _⟩ => by cases h
  | ok a =>
      constructor
      · intro h
        exact ⟨a, rfl, h⟩
      · rintro ⟨_, ⟨⟩, h⟩
        exact h

/-- The records of a file are well formed and decode to these rows. -/
def CsvFile.Rows {β : Type} (file : CsvFile) (decode : List String → Except BuildError β)
    (rows : List β) : Prop :=
  List.Forall₂ (fun record row => record >>= decode = .ok row) file.records rows

/-- **A scan** that decodes each record and then updates its state succeeds iff all records decode,
and is a fold over the rows. -/
theorem scanCsv_eq_ok {β σ : Type} {file : CsvFile} {decode : List String → Except BuildError β}
    {step : σ → β → σ} {f : List String → List String → σ → Except BuildError σ}
    (hf : ∀ record state, f file.header record state =
      decode record >>= fun row => .ok (step state row)) {init out : σ} :
    scanCsv file f init = .ok out ↔ ∃ rows, file.Rows decode rows ∧ rows.foldl step init = out := by
  obtain ⟨header, records⟩ := file
  simp only [scanCsv, CsvFile.Rows, hf]
  induction records generalizing init with
  | nil =>
      constructor
      · intro h
        cases h
        exact ⟨[], List.Forall₂.nil, rfl⟩
      · rintro ⟨_, ⟨⟩, rfl⟩
        rfl
  | cons record records ih =>
      rw [List.foldlM_cons, ← bind_assoc]
      cases hrow : record >>= decode with
      | error e =>
          -- the scan stops, and the file has no list of rows
          refine iff_of_false (fun h => by cases h) ?_
          rintro ⟨rows, hrows, -⟩
          cases hrows with
          | cons hhead _ =>
              rw [hrow] at hhead
              cases hhead
      | ok row =>
          refine (@ih (step init row) hf).trans ?_
          constructor
          · rintro ⟨rows, hrows, hout⟩
            exact ⟨row :: rows, List.Forall₂.cons hrow hrows, hout⟩
          · rintro ⟨_, hrows, hout⟩
            cases hrows with
            | cons hhead htail =>
                cases hrow.symm.trans hhead
                exact ⟨_, htail, hout⟩

/-- What one file decodes to, two ways of decoding of which one reads less. -/
theorem CsvFile.Rows.map {β γ : Type} {file : CsvFile} {decode : List String → Except BuildError β}
    {decode' : List String → Except BuildError γ} {p : β → γ} {rows : List β}
    (h : file.Rows decode rows)
    (hp : ∀ record row, decode record = .ok row → decode' record = .ok (p row)) :
    file.Rows decode' (rows.map p) := by
  refine List.forall₂_map_right_iff.mpr (h.imp fun record row hrow => ?_)
  cases record with
  | error e => cases hrow
  | ok record => exact hp record row hrow

/-- A file decodes to one list of rows. -/
theorem CsvFile.Rows.unique {β : Type} {file : CsvFile} {decode : List String → Except BuildError β}
    {rows rows' : List β} (h : file.Rows decode rows) (h' : file.Rows decode rows') :
    rows = rows' := by
  obtain ⟨header, records⟩ := file
  simp only [CsvFile.Rows] at h h'
  induction h generalizing rows' with
  | nil =>
      cases h'
      rfl
  | cons hrow _ ih =>
      cases h' with
      | cons hrow' hrows' =>
          cases hrow.symm.trans hrow'
          rw [ih hrows']

/-- Every row comes from a record of the file. -/
theorem CsvFile.Rows.exists_mem_record {β : Type} {file : CsvFile}
    {decode : List String → Except BuildError β} {rows : List β} (h : file.Rows decode rows)
    {row : β} (hrow : row ∈ rows) :
    ∃ record, .ok record ∈ file.records ∧ decode record = .ok row := by
  obtain ⟨i, hi, rfl⟩ := List.getElem_of_mem hrow
  have hi' : i < file.records.length := (List.Forall₂.length_eq h) ▸ hi
  obtain ⟨record, hrecord, hdecode⟩ := bind_eq_ok.mp (h.get hi' hi)
  exact ⟨record, hrecord ▸ List.get_mem _ _, hdecode⟩

/-- Every record of the file is a row. -/
theorem CsvFile.Rows.exists_mem_row {β : Type} {file : CsvFile}
    {decode : List String → Except BuildError β} {rows : List β} (h : file.Rows decode rows)
    {record : List String} (hrecord : .ok record ∈ file.records) :
    ∃ row ∈ rows, decode record = .ok row := by
  obtain ⟨i, hi, heq⟩ := List.getElem_of_mem hrecord
  have hi' : i < rows.length := (List.Forall₂.length_eq h) ▸ hi
  obtain ⟨record', hrecord', hdecode⟩ := bind_eq_ok.mp (h.get hi hi')
  cases heq.symm.trans hrecord'
  exact ⟨_, List.get_mem _ _, hdecode⟩

/-! ## A relation and its file -/

/-- The ends of the edge of one row, by the positions of its columns. -/
def rowEdge (srcMap dstMap : IdMap) (srcIdx dstIdx : Nat) (record : List String) :
    Except BuildError Edge := do
  let src ← srcMap.get (← parseI64 record srcIdx)
  let dst ← dstMap.get (← parseI64 record dstIdx)
  .ok (src, dst)

/-- The header names a source and a destination column, at these positions. Two columns of one name
are the source and then the destination. -/
def Describes (header : List String) (srcCol dstCol : String) (srcIdx dstIdx : Nat) : Prop :=
  if srcCol = dstCol then
    srcIdx < dstIdx ∧ ∀ k, header[k]? = some srcCol ↔ k = srcIdx ∨ k = dstIdx
  else
    (∀ k, header[k]? = some srcCol ↔ k = srcIdx) ∧ ∀ k, header[k]? = some dstCol ↔ k = dstIdx

/-- A scan of the CSR hands over these neighbours of a source, whatever the configuration. -/
def ReadsAs (files : CsrFiles) (src : UInt32) (dsts : List UInt32) : Prop :=
  ∃ a, CsrAdjacency.open files = .ok a ∧ ∀ config, ∃ chunks,
    a.scanChunks src config = some (.ok chunks) ∧ chunks.flatten = dsts

theorem ReadsAs.unique {files : CsrFiles} {src : UInt32} {dsts dsts' : List UInt32}
    (h : ReadsAs files src dsts) (h' : ReadsAs files src dsts') : dsts = dsts' := by
  obtain ⟨a, hopen, hscan⟩ := h
  obtain ⟨a', hopen', hscan'⟩ := h'
  cases hopen.symm.trans hopen'
  obtain ⟨chunks, hchunks, hflatten⟩ := hscan {}
  obtain ⟨chunks', hchunks', hflatten'⟩ := hscan' {}
  cases hchunks.symm.trans hchunks'
  exact hflatten.symm.trans hflatten'

theorem readsAs_writeCsr {numSrc : Nat} {edges : List Edge} (hedges : 8 * edges.length < 2 ^ 63)
    {src : UInt32} (hsrc : src.toNat < numSrc) :
    ReadsAs (writeCsr numSrc edges).1 src (destinations edges src) := by
  refine ⟨written numSrc edges, open_writeCsr hedges, fun config => ?_⟩
  obtain ⟨chunks, hscan, -, hflatten⟩ := scanChunks_written hedges numSrc src config
  rw [if_pos hsrc] at hflatten
  exact ⟨chunks, hscan, hflatten⟩

/-- Column lookup finds the first column of a name. -/
theorem idx_eq_ok {header : List String} {name : String} {i : Nat} (hi : header[i]? = some name)
    (hfirst : ∀ k, header[k]? = some name → i ≤ k) : idx header name = .ok i := by
  have hlt : i < header.length := (List.getElem?_eq_some_iff.mp hi).1
  have hfind : (header.findIdx? fun candidate => candidate == name) = some i := by
    refine List.findIdx?_eq_some_iff_getElem.mpr ⟨hlt, ?_, fun k hk hname => ?_⟩
    · rw [(List.getElem?_eq_some_iff.mp hi).2, beq_self_eq_true]
    · have hk' : header[k]? = some name := by
        rw [List.getElem?_eq_getElem (hk.trans hlt), beq_iff_eq.mp hname]
      exact absurd (hfirst k hk') (not_le.mpr hk)
  rw [idx, hfind]

/-- The relation read back from its CSRs is the relation with these edges: a source has its
destinations, a destination its sources, with the multiplicities of the edges. -/
def Bidirectional.Equals (b : Bidirectional) (numSrc numDst : Nat) (edges : List Edge) : Prop :=
  (∀ src, src.toNat < numSrc → ReadsAs b.outFiles src (destinations edges src)) ∧
    (∀ dst, dst.toNat < numDst →
      ReadsAs b.inFiles dst (destinations (edges.map Prod.swap) dst)) ∧
    ∀ src dst outs ins, src.toNat < numSrc → dst.toNat < numDst → ReadsAs b.outFiles src outs →
      ReadsAs b.inFiles dst ins → outs.count dst = ins.count src

/-- Two written edge lists, one the converse of the other, are read back as a relation. -/
theorem equals_writeCsr {edges : List Edge} (hedges : 8 * edges.length < 2 ^ 63)
    (numSrc numDst : Nat) :
    Bidirectional.Equals ⟨(writeCsr numSrc edges).1, (writeCsr numDst (edges.map Prod.swap)).1⟩
      numSrc numDst edges := by
  have hswap : 8 * (edges.map Prod.swap).length < 2 ^ 63 := by rwa [List.length_map]
  refine ⟨fun src hsrc => readsAs_writeCsr hedges hsrc,
    fun dst hdst => readsAs_writeCsr hswap hdst, fun src dst outs ins hsrc hdst houts hins => ?_⟩
  rw [houts.unique (readsAs_writeCsr hedges hsrc), hins.unique (readsAs_writeCsr hswap hdst),
    count_destinations, count_destinations]
  exact (List.count_map_of_injective edges Prod.swap Prod.swap_injective (src, dst)).symm

/-- **A relation that is built** consists of the edges of the columns that are found. -/
theorem buildBidirectionalCsr_eq {file : CsvFile} {srcMap dstMap : IdMap} {srcCol dstCol : String}
    {i j : Nat} (hi : idx file.header srcCol = .ok i) (hj : idx file.header dstCol = .ok j)
    {edges : List Edge} (hedges : file.Rows (rowEdge srcMap dstMap i j) edges)
    (numSrc numDst : Nat) :
    buildBidirectionalCsr file numSrc numDst srcMap dstMap srcCol dstCol =
      .ok ⟨(writeCsr numSrc edges).1, (writeCsr numDst (edges.map Prod.swap)).1⟩ := by
  have hfold : ∀ (rows : List Edge) (state : List Edge × List Edge),
      rows.foldl (fun state row => (state.1 ++ [row], state.2 ++ [row.swap])) state =
        (state.1 ++ rows, state.2 ++ rows.map Prod.swap) := by
    intro rows
    induction rows with
    | nil => intro state; simp
    | cons row rows ih => intro state; rw [List.foldl_cons, ih]; simp
  have hscan : scanCsv file
      (fun header record edges => do
        let src ← srcMap.get (← parseI64 record (← idx header srcCol))
        let dst ← dstMap.get (← parseI64 record (← idx header dstCol))
        .ok (edges.1 ++ [(src, dst)], edges.2 ++ [(dst, src)])) (([], []) : List Edge × List Edge) =
      .ok (edges, edges.map Prod.swap) := by
    refine (scanCsv_eq_ok fun record state => ?_).mpr ⟨edges, hedges, hfold edges ([], [])⟩
    simp only [rowEdge, hi, hj, bind_assoc]
    rfl
  rw [buildBidirectionalCsr, hscan]
  rfl

/-- The columns of a header that describes the relation. -/
theorem idx_of_describes {header : List String} {srcCol dstCol : String} {i j : Nat}
    (h : Describes header srcCol dstCol i j) :
    idx header srcCol = .ok i ∧ idx header dstCol = .ok (if srcCol = dstCol then i else j) := by
  rw [Describes] at h
  by_cases hcol : srcCol = dstCol
  · rw [if_pos hcol] at h ⊢
    have hidx : idx header srcCol = .ok i := by
      refine idx_eq_ok ((h.2 i).mpr (Or.inl rfl)) fun k hk => ?_
      rcases (h.2 k).mp hk with rfl | rfl
      · exact le_rfl
      · exact h.1.le
    exact ⟨hidx, hcol ▸ hidx⟩
  · rw [if_neg hcol] at h ⊢
    exact ⟨idx_eq_ok ((h.1 i).mpr rfl) fun k hk => ((h.1 k).mp hk).ge,
      idx_eq_ok ((h.2 j).mpr rfl) fun k hk => ((h.2 k).mp hk).ge⟩

/-- The edges that are built for a relation: where one name stands for both columns, the source
column is read twice. -/
def builtEdges (rel : MultiEdge) (edges : List Edge) : List Edge :=
  if rel.srcCol = rel.dstCol then edges.map fun edge => (edge.1, edge.1) else edges

theorem builtEdges_of_ne_knows {rel : MultiEdge} (h : rel ≠ .knows) (edges : List Edge) :
    builtEdges rel edges = edges := by
  refine if_neg ?_
  cases rel with
  | knows => exact absurd rfl h
  | personLikesPost => decide
  | personLikesComment => decide
  | forumHasMember => decide

/-- What the edge of a row consists of. -/
theorem rowEdge_eq_ok {srcMap dstMap : IdMap} {i j : Nat} {record : List String} {edge : Edge} :
    rowEdge srcMap dstMap i j record = .ok edge ↔
      (∃ external, parseI64 record i = .ok external ∧ srcMap.get external = .ok edge.1) ∧
        ∃ external, parseI64 record j = .ok external ∧ dstMap.get external = .ok edge.2 := by
  simp only [rowEdge, bind_eq_ok]
  constructor
  · rintro ⟨external, hexternal, src, hsrc, external', hexternal', dst, hdst, h⟩
    cases h
    exact ⟨⟨external, hexternal, hsrc⟩, external', hexternal', hdst⟩
  · rintro ⟨⟨external, hexternal, hsrc⟩, external', hexternal', hdst⟩
    exact ⟨external, hexternal, _, hsrc, external', hexternal', _, hdst, rfl⟩

/-- Reading the source column twice needs no more known ids. -/
theorem rowEdge_src_src {srcMap dstMap : IdMap} {i j : Nat} {record : List String} {edge : Edge}
    (h : rowEdge srcMap dstMap i j record = .ok edge) :
    rowEdge srcMap srcMap i i record = .ok (edge.1, edge.1) :=
  have hsrc := (rowEdge_eq_ok.mp h).1
  rowEdge_eq_ok.mpr ⟨hsrc, hsrc⟩

/-- The local ids of a row are in range. -/
theorem lt_len_of_rowEdge {srcMap dstMap : IdMap} {i j : Nat} {record : List String} {edge : Edge}
    (h : rowEdge srcMap dstMap i j record = .ok edge) : edge.1.toNat < srcMap.len := by
  obtain ⟨⟨external, -, hget⟩, -⟩ := rowEdge_eq_ok.mp h
  exact IdMap.lt_len_of_get hget

/-- **One relation**, whose file names its columns and whose ids are all known, is built. -/
theorem buildRelation_eq {csvRoot : String → CsvFile} {maps : IdMaps} {rel : MultiEdge} {i j : Nat}
    (hheader : Describes (csvRoot rel.path).header rel.srcCol rel.dstCol i j) {edges : List Edge}
    (hknown : (csvRoot rel.path).Rows (rowEdge (rel.srcMap maps) (rel.dstMap maps) i j) edges) :
    buildRelation csvRoot maps rel =
      .ok ⟨(writeCsr (rel.srcMap maps).len (builtEdges rel edges)).1,
        (writeCsr (rel.dstMap maps).len ((builtEdges rel edges).map Prod.swap)).1⟩ := by
  obtain ⟨hi, hj⟩ := idx_of_describes hheader
  rw [buildRelation, builtEdges]
  by_cases hcol : rel.srcCol = rel.dstCol
  · have hknows : rel = .knows := by
      cases rel with
      | knows => rfl
      | personLikesPost => exact absurd hcol (by decide)
      | personLikesComment => exact absurd hcol (by decide)
      | forumHasMember => exact absurd hcol (by decide)
    subst hknows
    rw [if_pos hcol] at hj ⊢
    exact buildBidirectionalCsr_eq hi hj (hknown.map fun _ _ => rowEdge_src_src) _ _
  · rw [if_neg hcol] at hj ⊢
    exact buildBidirectionalCsr_eq hi hj hknown _ _

/-- **All relations** are built. -/
theorem buildMultiEdges_eq {csvRoot : String → CsvFile} {maps : IdMaps}
    {srcIdx dstIdx : MultiEdge → Nat} {edges : MultiEdge → List Edge}
    (hheader : ∀ rel : MultiEdge,
      Describes (csvRoot rel.path).header rel.srcCol rel.dstCol (srcIdx rel) (dstIdx rel))
    (hknown : ∀ rel : MultiEdge, (csvRoot rel.path).Rows
      (rowEdge (rel.srcMap maps) (rel.dstMap maps) (srcIdx rel) (dstIdx rel)) (edges rel)) :
    buildMultiEdges csvRoot maps = .ok fun rel =>
      ⟨(writeCsr (rel.srcMap maps).len (builtEdges rel (edges rel))).1,
        (writeCsr (rel.dstMap maps).len ((builtEdges rel (edges rel)).map Prod.swap)).1⟩ := by
  have hbuilt := fun rel => buildRelation_eq (hheader rel) (hknown rel)
  rw [buildMultiEdges, hbuilt .knows, hbuilt .personLikesPost, hbuilt .personLikesComment,
    hbuilt .forumHasMember]
  refine congrArg Except.ok (funext fun rel => ?_)
  cases rel <;> rfl

/-- **KNOWS against its file**: two columns of one name are read as one. -/
theorem equals_knows_iff {numSrc numDst : Nat} {edges : List Edge}
    (hedges : 8 * edges.length < 2 ^ 63) (hlt : ∀ edge ∈ edges, edge.1.toNat < numSrc) :
    Bidirectional.Equals ⟨(writeCsr numSrc (builtEdges .knows edges)).1,
        (writeCsr numDst ((builtEdges .knows edges).map Prod.swap)).1⟩ numSrc numDst edges ↔
      ∀ edge ∈ edges, edge.1 = edge.2 := by
  have hknows : builtEdges .knows edges = edges.map fun edge => (edge.1, edge.1) := if_pos rfl
  constructor
  · rintro ⟨hout, -⟩ edge hedge
    have hsize : 8 * (builtEdges .knows edges).length < 2 ^ 63 := by
      rwa [hknows, List.length_map]
    -- both lists are read for the source of the edge
    have hread := (hout edge.1 (hlt edge hedge)).unique (readsAs_writeCsr hsize (hlt edge hedge))
    have hmem : edge.2 ∈ destinations edges edge.1 := mem_destinations.mpr hedge
    rw [hread, mem_destinations, hknows] at hmem
    obtain ⟨edge', -, heq⟩ := List.mem_map.mp hmem
    rw [Prod.mk.injEq] at heq
    exact heq.1.symm.trans heq.2
  · intro hself
    have hsame : builtEdges .knows edges = edges := by
      rw [hknows]
      refine (List.map_congr_left fun edge hedge => ?_).trans (List.map_id _)
      exact Prod.ext rfl (hself edge hedge)
    rw [hsame]
    exact equals_writeCsr hedges _ _

/-- **The relations against their files.** With all ids known, the build succeeds; the relations whose
columns have different names are those of their files, and KNOWS is iff its file relates every person
to itself. An allocation is smaller than `2 ^ 63` bytes, and an edge takes eight. -/
theorem multiEdges_iff (csvRoot : String → CsvFile) (maps : IdMaps) (srcIdx dstIdx : MultiEdge → Nat)
    (edges : MultiEdge → List Edge)
    (hheader : ∀ rel : MultiEdge,
      Describes (csvRoot rel.path).header rel.srcCol rel.dstCol (srcIdx rel) (dstIdx rel))
    (hknown : ∀ rel : MultiEdge, (csvRoot rel.path).Rows
      (rowEdge (rel.srcMap maps) (rel.dstMap maps) (srcIdx rel) (dstIdx rel)) (edges rel))
    (hsize : ∀ rel, 8 * (edges rel).length < 2 ^ 63) :
    ∃ g, buildMultiEdges csvRoot maps = .ok g ∧
      (∀ rel, rel ≠ .knows →
        (g rel).Equals (rel.srcMap maps).len (rel.dstMap maps).len (edges rel)) ∧
      ((∀ rel, (g rel).Equals (rel.srcMap maps).len (rel.dstMap maps).len (edges rel)) ↔
        ∀ edge ∈ edges .knows, edge.1 = edge.2) := by
  have hothers : ∀ rel, rel ≠ .knows → Bidirectional.Equals
      ⟨(writeCsr (rel.srcMap maps).len (builtEdges rel (edges rel))).1,
        (writeCsr (rel.dstMap maps).len ((builtEdges rel (edges rel)).map Prod.swap)).1⟩
      (rel.srcMap maps).len (rel.dstMap maps).len (edges rel) := by
    intro rel hrel
    rw [builtEdges_of_ne_knows hrel]
    exact equals_writeCsr (hsize rel) _ _
  have hlt : ∀ edge ∈ edges .knows, edge.1.toNat < maps.person.len := by
    intro edge hedge
    obtain ⟨record, -, hrecord⟩ := (hknown .knows).exists_mem_record hedge
    exact lt_len_of_rowEdge hrecord
  -- only KNOWS is left, whose two columns are read as one
  have hknows := @equals_knows_iff maps.person.len maps.person.len (edges .knows) (hsize .knows) hlt
  refine ⟨_, buildMultiEdges_eq hheader hknown, hothers, fun h => hknows.mp (h .knows), ?_⟩
  intro hself rel
  by_cases hrel : rel = .knows
  · exact hrel ▸ hknows.mpr hself
  · exact hothers rel hrel

/-! ### A small graph -/

/-- Two persons, two posts, a comment and a forum. -/
def sampleMaps : IdMaps where
  person := (IdMap.empty.push 933).push 4194
  post := (IdMap.empty.push 7).push 8
  comment := IdMap.empty.push 5
  forum := IdMap.empty.push 1

/-- One person knows the other. -/
def sampleRoot : String → CsvFile := fun path =>
  if path = "dynamic/person_knows_person_0_0.csv" then
    ⟨["Person.id", "Person.id", "creationDate"], [.ok ["933", "4194", "0"]]⟩
  else if path = "dynamic/person_likes_post_0_0.csv" then
    ⟨["Person.id", "Post.id", "creationDate"], [.ok ["933", "8", "0"], .ok ["933", "7", "0"]]⟩
  else if path = "dynamic/person_likes_comment_0_0.csv" then
    ⟨["Person.id", "Comment.id", "creationDate"], []⟩
  else ⟨["Forum.id", "Person.id", "joinDate"], [.ok ["1", "4194", "0"]]⟩

def sampleEdges : MultiEdge → List Edge
  | .knows => [(0, 1)]
  | .personLikesPost => [(0, 1), (0, 0)]
  | .personLikesComment => []
  | .forumHasMember => [(0, 1)]

/-- A header whose first two columns are those of the relation. -/
theorem describes_cons_cons {srcCol dstCol other : String} (hsrc : other ≠ srcCol)
    (hdst : other ≠ dstCol) : Describes [srcCol, dstCol, other] srcCol dstCol 0 1 := by
  rw [Describes]
  split
  · rename_i heq
    subst heq
    refine ⟨Nat.zero_lt_one, fun k => ?_⟩
    rcases k with _ | _ | _ | k <;> simp [hsrc]
  · rename_i hne
    constructor
    · intro k
      rcases k with _ | _ | _ | k <;> simp [hsrc, Ne.symm hne]
    · intro k
      rcases k with _ | _ | _ | k <;> simp [hdst, hne]

theorem describes_sampleRoot (rel : MultiEdge) :
    Describes (sampleRoot rel.path).header rel.srcCol rel.dstCol 0 1 := by
  cases rel with
  | knows => exact describes_cons_cons (by decide) (by decide)
  | personLikesPost => exact describes_cons_cons (by decide) (by decide)
  | personLikesComment => exact describes_cons_cons (by decide) (by decide)
  | forumHasMember => exact describes_cons_cons (by decide) (by decide)

theorem rows_sampleRoot (rel : MultiEdge) : (sampleRoot rel.path).Rows
    (rowEdge (rel.srcMap sampleMaps) (rel.dstMap sampleMaps) 0 1) (sampleEdges rel) := by
  cases rel with
  | knows => exact .cons rfl .nil
  | personLikesPost => exact .cons rfl (.cons rfl .nil)
  | personLikesComment => exact .nil
  | forumHasMember => exact .cons rfl .nil

/-- On the small graph every relation but KNOWS is that of its file. -/
theorem multiEdges_iff_sample :
    ∃ g, buildMultiEdges sampleRoot sampleMaps = .ok g ∧
      (g .personLikesPost).Equals 2 2 (sampleEdges .personLikesPost) := by
  obtain ⟨g, hg, hothers, -⟩ := multiEdges_iff sampleRoot sampleMaps (fun _ => 0) (fun _ => 1)
    sampleEdges describes_sampleRoot rows_sampleRoot (fun rel => by cases rel <;> decide)
  exact ⟨g, hg, hothers .personLikesPost (by decide)⟩

/-- Person 933 knows person 4194, but the base graph says that it knows itself. -/
theorem not_multiEdges :
    ¬∀ (csvRoot : String → CsvFile) (maps : IdMaps) (srcIdx dstIdx : MultiEdge → Nat)
      (edges : MultiEdge → List Edge),
      (∀ rel : MultiEdge,
        Describes (csvRoot rel.path).header rel.srcCol rel.dstCol (srcIdx rel) (dstIdx rel)) →
      (∀ rel : MultiEdge, (csvRoot rel.path).Rows
        (rowEdge (rel.srcMap maps) (rel.dstMap maps) (srcIdx rel) (dstIdx rel)) (edges rel)) →
      (∀ rel, 8 * (edges rel).length < 2 ^ 63) →
      ∃ g, buildMultiEdges csvRoot maps = .ok g ∧
        ∀ rel, (g rel).Equals (rel.srcMap maps).len (rel.dstMap maps).len (edges rel) := by
  intro h
  obtain ⟨g, hg, hequals⟩ := h sampleRoot sampleMaps (fun _ => 0) (fun _ => 1) sampleEdges
    describes_sampleRoot rows_sampleRoot (fun rel => by cases rel <;> decide)
  have hbuilt := buildMultiEdges_eq describes_sampleRoot rows_sampleRoot
  cases hg.symm.trans hbuilt
  have hlt : ∀ edge ∈ sampleEdges .knows, edge.1.toNat < 2 := by
    intro edge hedge
    rw [List.mem_singleton.mp hedge]
    decide
  have hself := (@equals_knows_iff 2 2 (sampleEdges .knows) (by decide) hlt).mp (hequals .knows)
  exact absurd (hself (0, 1) List.mem_cons_self) (by decide)

end Base

end LsmGraph
