import LsmGraph.Loader.VertexFiles
import LsmGraph.Snb.FriendScores
import LsmGraph.Snb.MessageRoots

/-! # IS2 to IS5 and IS7: short reads

`is3` lists the friends of a person, `is2` the person's latest messages with the posts at the roots of
their threads, and `is7` the replies to a message; `is4` and `is5` read a message and its creator. Friendship
goes both ways, and so a person is listed among the friends of another exactly when that one is listed for
the person, with one date (`is3_serve`); a reply that is posted comes to the end of the list of replies
(`is7_serve`); what `is2` says of a thread is what was noted of it as its comments arrived (`is2_serve`);
and a message is read as it was posted (`is4_is5_serve`). -/

namespace LsmGraph

open KeyedSort Tally UpdateStream

/-- The comment by which an update answers a message. -/
def UpdateStream.Update.answerTo (edgeLabel : EdgeLabel) (msgVid : VertexId) (u : Update) :
    Option VertexId :=
  if u.replyTo edgeLabel = some msgVid then u.commentVid else none

theorem UpdateStream.Update.answerTo_of_none {edgeLabel : EdgeLabel} {msgVid : VertexId} {u : Update}
    (h : u.commentVid = none) : u.answerTo edgeLabel msgVid = none := by
  rw [Update.answerTo, h]
  exact ite_self none

/-- What an update sends: a post or a comment, with the text that is read of it. -/
structure SentMessage where
  vid : VertexId
  id : Int64
  creationDate : Int64
  content : String
  creator : Int64
  deriving DecidableEq, Repr

def UpdateStream.Update.message : Update → Option SentMessage
  | addPost p _ => some ⟨encodeVid .post p.id, p.id, p.creationDate, p.contentOrImage, p.creator⟩
  | addComment c _ => some ⟨encodeVid .comment c.id, c.id, c.creationDate, c.content, c.creator⟩
  | _ => none

/-- Whom an update lists as the creator of a message. -/
def UpdateStream.Update.creatorsOf (vid : VertexId) (u : Update) : List VertexId :=
  (u.message.toList.filter fun m => m.vid = vid).map fun m => encodeVid .person m.creator

/-- A message is stored as a post or as a comment. -/
theorem vertexRow_of_message {u : Update} {m : SentMessage} (h : u.message = some m) :
    ∃ data, u.vertexRow = some ⟨m.vid, data⟩ ∧
      ((∃ p, data = .post p ∧
          m = ⟨encodeVid .post p.id, p.id, p.creationDate, p.contentOrImage, p.creator⟩) ∨
        u.commentVid ≠ none ∧ ∃ c, data = .comment c ∧
          m = ⟨encodeVid .comment c.id, c.id, c.creationDate, c.content, c.creator⟩) := by
  cases u with
  | addPost p tags =>
      obtain rfl := Option.some.inj h
      exact ⟨.post p, rfl, Or.inl ⟨p, rfl, rfl⟩⟩
  | addComment c tags =>
      obtain rfl := Option.some.inj h
      exact ⟨.comment c, rfl, Or.inr ⟨Option.some_ne_none _, c, rfl, rfl⟩⟩
  | _ => exact absurd h (Option.some_ne_none m).symm

namespace StoredGraph

/-! ## IS3 -/

structure Is3Row where
  personId : Int64
  firstName : String
  lastName : String
  friendshipCreationDate : Int64
  deriving DecidableEq, Repr

def Is3Row.key (row : Is3Row) : Int64ᵒᵈ ×ₗ Int64 :=
  recencyKey row.friendshipCreationDate row.personId

variable (g : StoredGraph)

def is3Row (friend : VertexId × EdgeProp) : Option Is3Row :=
  (g.person friend.1).map fun person =>
    ⟨person.id, person.firstName, person.lastName, friend.2.asI64⟩

def is3 (personId : Int64) : List Is3Row :=
  let personVid := encodeVid .person personId
  if g.person personVid = none then []
  else sortByKey Is3Row.key ((g.outEdgesWithProp personVid .knows).filterMap g.is3Row)

/-- Since when two persons know each other. -/
def friendsSince (u v : VertexId) : Int64 := (g.edgePropByType u EdgeLabel.knows.asI32 v).asI64

/-- The answer of `is3`: a row for every friend that is stored, the latest friendship first. -/
def FriendRows (u : VertexId) : Nat → List Is3Row → Prop :=
  TopRows (fun v => v ∈ g.outNeighborsCached u .knows ∧ g.person v ≠ none)
    (fun v => recencyKey (g.friendsSince u v) (g.personOf v).id)
    (fun v => ⟨(g.personOf v).id, (g.personOf v).firstName, (g.personOf v).lastName,
      g.friendsSince u v⟩)

variable {g}

theorem recencyKey_inj {date date' id id' : Int64} (h : recencyKey date id = recencyKey date' id') :
    date = date' ∧ id = id' := by
  have hpair := Prod.ext_iff.mp (toLex.injective h)
  exact ⟨OrderDual.toDual.injective hpair.1, hpair.2⟩

/-- The rows, before they are sorted. -/
theorem mem_is3Rows {u : VertexId} {row : Is3Row} :
    row ∈ (g.outEdgesWithProp u .knows).filterMap g.is3Row ↔
      ∃ v ∈ g.outNeighborsCached u .knows, ∃ person, g.person v = some person ∧
        row = ⟨person.id, person.firstName, person.lastName, g.friendsSince u v⟩ := by
  simp only [outEdgesWithProp, List.mem_filterMap, List.mem_map, is3Row, Option.map_eq_some_iff]
  constructor
  · rintro ⟨-, ⟨v, hv, rfl⟩, person, hperson, rfl⟩
    exact ⟨v, hv, person, hperson, rfl⟩
  · rintro ⟨v, hv, person, hperson, rfl⟩
    exact ⟨_, ⟨v, hv, rfl⟩, person, hperson, rfl⟩

theorem mem_is3 {personId : Int64} (hperson : g.person (encodeVid .person personId) ≠ none)
    {row : Is3Row} :
    row ∈ g.is3 personId ↔ ∃ v ∈ g.outNeighborsCached (encodeVid .person personId) .knows,
      ∃ person, g.person v = some person ∧ row = ⟨person.id, person.firstName, person.lastName,
        g.friendsSince (encodeVid .person personId) v⟩ := by
  rw [is3, if_neg hperson, mem_sortByKey, mem_is3Rows]

/-- The answer is the friends that are stored, each of them once. -/
theorem friendRows_is3 (hnodup : NoDuplicates g.adjacency) (hkeys : Stored.WellKeyed g.vertices)
    {personId : Int64} (hperson : g.person (encodeVid .person personId) ≠ none) (limit : Nat) :
    g.FriendRows (encodeVid .person personId) limit ((g.is3 personId).take limit) := by
  let u := encodeVid .person personId
  let candidate (v : VertexId) := g.is3Row (v, g.edgePropByType u EdgeLabel.knows.asI32 v)
  have hcandidate : ∀ v row, candidate v = some row ↔ ∃ person, g.person v = some person ∧
      row = ⟨person.id, person.firstName, person.lastName, g.friendsSince u v⟩ := by
    intro v row
    simp only [candidate, is3Row, Option.map_eq_some_iff]
    exact exists_congr fun person => and_congr_right fun _ => eq_comm
  have hrows : (g.outEdgesWithProp u .knows).filterMap g.is3Row =
      (g.outNeighborsCached u .knows).filterMap candidate := List.filterMap_map
  have htop : g.FriendRows u limit (((sortByKey Is3Row.key
      ((g.outNeighborsCached u .knows).filterMap candidate)).take limit).map id) := by
    refine topRows_filterMap (hnodup (u, EdgeLabel.knows.asI32))
      (fun row => encodeVid .person row.personId) ?_ ?_ ?_ limit
    · intro v row hrow
      obtain ⟨person, hv, rfl⟩ := (hcandidate v row).mp hrow
      exact (vid_of_person hkeys hv).symm
    · intro v
      simp [candidate, is3Row, SnbGraph.outNeighborsCached]
    · intro v _ row hrow
      obtain ⟨person, hv, rfl⟩ := (hcandidate v row).mp hrow
      rw [personOf_eq hv]
      exact ⟨rfl, rfl⟩
  rw [is3, if_neg hperson, hrows]
  rwa [List.map_id] at htop

/-- Persons with one id have one row. -/
theorem FriendRows.unique (hkeys : Stored.WellKeyed g.vertices) {u : VertexId} {limit : Nat}
    {rows rows' : List Is3Row} (h : g.FriendRows u limit rows) (h' : g.FriendRows u limit rows') :
    rows = rows' := by
  refine TopRows.unique h h' fun v w hv hw hkey => ?_
  rw [eq_of_personOf_id_eq hkeys hv.2 hw.2 (recencyKey_inj hkey).2]

/-- **IS3.** In any graph that is opened from a store that imports reach, and served any requests, the
answer is the friends that are stored, the latest first, and no other list is. Two persons are in each
other's answers or in neither, with the same date. -/
theorem is3_serve {store : StoreDir} (h : store.Reached) (scan : List EdgeRecord)
    (requests : List (String × Json)) :
    let g := (StoredGraph.open store scan).serve requests
    ∀ u p, g.person u = some p →
      (∀ rows, (∀ limit, g.FriendRows u limit (rows.take limit)) ↔ rows = g.is3 p.id) ∧
      ∀ v q, g.person v = some q → ∀ date,
        (⟨q.id, q.firstName, q.lastName, date⟩ ∈ g.is3 p.id ↔
          ⟨p.id, p.firstName, p.lastName, date⟩ ∈ g.is3 q.id) := by
  intro g u p hu
  obtain ⟨hmirrored, hkeys⟩ : g.Mirrored ∧ Stored.WellKeyed g.vertices := h.served scan requests
  have hvid : ∀ {v : VertexId} {q : PersonProps}, g.person v = some q →
      encodeVid .person q.id = v := fun hv => (vid_of_person hkeys hv).symm
  have hstored : ∀ {v : VertexId} {q : PersonProps}, g.person v = some q →
      g.person (encodeVid .person q.id) ≠ none := fun hv => by
    rw [hvid hv, hv]
    exact Option.some_ne_none _
  constructor
  · intro rows
    have hanswer := friendRows_is3 hmirrored.nodup hkeys (hstored hu)
    rw [hvid hu] at hanswer
    constructor
    · intro hrows
      have htake := (hrows (rows.length + (g.is3 p.id).length)).unique hkeys (hanswer _)
      rwa [List.take_of_length_le (Nat.le_add_right _ _),
        List.take_of_length_le (Nat.le_add_left _ _)] at htake
    · rintro rfl
      exact hanswer
  · -- a row of one person stands for the edge, and so for the edge back
    have hrow : ∀ {u v : VertexId} {p q : PersonProps}, g.person u = some p → g.person v = some q →
        ∀ date, ⟨q.id, q.firstName, q.lastName, date⟩ ∈ g.is3 p.id ↔
          v ∈ g.outNeighborsCached u .knows ∧ date = g.friendsSince u v := by
      intro u v p q hu hv date
      rw [mem_is3 (hstored hu), hvid hu]
      constructor
      · rintro ⟨w, hw, person, hperson, hrow⟩
        have hid : q.id = person.id := congrArg Is3Row.personId hrow
        have hsame : w = v := by rw [← hvid hperson, ← hvid hv, hid]
        subst hsame
        exact ⟨hw, congrArg Is3Row.friendshipCreationDate hrow⟩
      · rintro ⟨hedge, rfl⟩
        exact ⟨v, hedge, q, hv, rfl⟩
    intro v q hv date
    have hmirror : Mirror (u, EdgeLabel.knows.asI32, v) (v, EdgeLabel.knows.asI32, u) := .knows u v
    have hsince : g.friendsSince u v = g.friendsSince v u := by
      rw [friendsSince, friendsSince, SnbGraph.edgePropByType, SnbGraph.edgePropByType,
        hmirrored.props _ _ hmirror]
    rw [hrow hu hv, hrow hv hu, hsince]
    exact and_congr_left fun _ => hmirrored.edges _ _ hmirror

/-- Two persons arrive, and get to know each other. -/
def friends : List Update :=
  [.addPerson ⟨⟨1, "Ada", "", "", 0, 0, "", "", "", ""⟩, 9⟩ [] [] [],
    .addPerson ⟨⟨2, "Bo", "", "", 0, 0, "", "", "", ""⟩, 9⟩ [] [] [], .know 1 2 7]

theorem is3_serve_friends :
    ∃ store, importSnbFullDir 0 oneTag = .ok store ∧
      let g := (StoredGraph.open store []).serve (friends.map Update.request)
      (⟨2, "Bo", "", 7⟩ ∈ g.is3 1 ↔ ⟨1, "Ada", "", 7⟩ ∈ g.is3 2) := by
  obtain ⟨store, hstore, hvertices⟩ : ∃ store, importSnbFullDir 0 oneTag = .ok store ∧
      store.vertices = [⟨encodeVid .tag 3, .tag ⟨3, "Cello", 5⟩⟩] := ⟨_, rfl, rfl⟩
  have hloaded : ((StoredGraph.open store []).serve (friends.map Update.request)).vertices =
      Stored.loadVertices (⟨encodeVid .tag 3, .tag ⟨3, "Cello", 5⟩⟩ ::
        friends.filterMap Update.vertexRow) := by
    rw [serve_eq, readRequests_of_updates (by decide), vertices_foldl_applyUpdate _ rfl, hvertices]
    rfl
  have hperson : ∀ vid, ((StoredGraph.open store []).serve (friends.map Update.request)).person vid =
      StoredGraph.person ⟨⟨fun _ => none, fun _ => none⟩, Stored.loadVertices
        (⟨encodeVid .tag 3, .tag ⟨3, "Cello", 5⟩⟩ :: friends.filterMap Update.vertexRow)⟩ vid := by
    intro vid
    rw [person, OpenGraph.person, toOpen, hloaded]
    rfl
  refine ⟨store, hstore, (is3_serve (.full hstore) [] (friends.map Update.request)
    (encodeVid .person 1) ⟨1, "Ada", "", "", 0, 0, "", "", "", ""⟩ ?_).2
    (encodeVid .person 2) ⟨2, "Bo", "", "", 0, 0, "", "", "", ""⟩ ?_ 7⟩
  · rw [hperson]
    decide +kernel
  · rw [hperson]
    decide +kernel

/-! ## IS7 -/

structure Is7Row where
  commentId : Int64
  commentContent : String
  commentCreationDate : Int64
  replyAuthorId : Int64
  replyAuthorFirstName : String
  replyAuthorLastName : String
  replyAuthorKnowsOriginalMessageAuthor : Bool
  deriving DecidableEq, Repr

def Is7Row.key (row : Is7Row) : Int64ᵒᵈ ×ₗ Int64 :=
  recencyKey row.commentCreationDate row.replyAuthorId

variable (g)

/-- `collect_is7_reply`. -/
def collectIs7Reply (originalAuthorFriends : List VertexId) (replyVid : VertexId) : Option Is7Row := do
  let comment ← g.toOpen.comment replyVid
  let authorVid ← g.toOpen.messageCreatorVid replyVid
  let author ← g.person authorVid
  some
    { commentId := comment.id
      commentContent := comment.content
      commentCreationDate := comment.creationDate
      replyAuthorId := author.id
      replyAuthorFirstName := author.firstName
      replyAuthorLastName := author.lastName
      replyAuthorKnowsOriginalMessageAuthor := authorVid ∈ originalAuthorFriends }

def is7 (messageId : Int64) : List Is7Row :=
  match g.messageVid messageId with
  | none => []
  | some msgVid =>
      match g.toOpen.messageCreatorVid msgVid with
      | none => []
      | some originalAuthor =>
          let directFriends := g.toOpen.knowsNeighbors originalAuthor
          sortByKey Is7Row.key
            ((g.inNeighborsCached msgVid .replyOfPost ++
              g.inNeighborsCached msgVid .replyOfComment).filterMap (g.collectIs7Reply directFriends))

variable {g}

/-- What calls list under a label of the reverse direction. -/
theorem dstsUnder_reverse_insertionsOf (vid : VertexId) (edgeLabel : EdgeLabel)
    (calls : List EdgeCall) :
    dstsUnder (vid, -edgeLabel.asI32) (insertionsOf calls) =
      (calls.filter fun c => c.dst = vid ∧ c.edgeLabel = edgeLabel ∧ c.includeReverse = true).map
        EdgeCall.src := by
  induction calls with
  | nil => rfl
  | cons c calls ih =>
      have hrest : insertionsOf (c :: calls) = c.insertions ++ insertionsOf calls := rfl
      rw [hrest, dstsUnder, List.filter_append, List.map_append]
      refine (congrArg (_ ++ ·) ih).trans ?_
      rw [List.filter_cons, EdgeCall.insertions]
      have hforward : ∀ l : EdgeLabel, l.asI32 ≠ -edgeLabel.asI32 := fun l => asI32_ne_neg l edgeLabel
      cases c.includeReverse <;>
        by_cases h : c.dst = vid ∧ c.edgeLabel = edgeLabel <;>
          simp [EdgeInsertion.key, asI32_inj, hforward, h, ← and_assoc]

/-- What an update lists among the replies to a message. -/
theorem dstsUnder_reverse_update (u : Update) (msgVid : VertexId) {edgeLabel : EdgeLabel}
    (hlabel : edgeLabel = .replyOfPost ∨ edgeLabel = .replyOfComment) :
    dstsUnder (msgVid, -edgeLabel.asI32) (insertionsOf u.toSnb.calls) =
      (u.answerTo edgeLabel msgVid).toList := by
  rw [dstsUnder_reverse_insertionsOf]
  cases u with
  | addComment c tags =>
      have htags : ((tags.flatMap fun tag => ownEdge (encodeVid .comment c.id) .tag .hasTag tag).filter
          fun call => call.dst = msgVid ∧ call.edgeLabel = edgeLabel ∧ call.includeReverse = true) =
            [] := by
        rw [List.filter_eq_nil_iff]
        simp only [List.forall_mem_flatMap, forall_mem_ownEdge]
        rcases hlabel with rfl | rfl <;> simp
      rw [Update.toSnb, SnbUpdate.calls, applyAddComment, List.filter_append, htags, List.append_nil]
      simp only [Update.answerTo, Update.commentVid, Update.replyTo, ownEdge, edgeCalls]
      rcases c with ⟨c, -, -, -, -, -, post | post, parent | parent⟩ <;>
        rcases hlabel with rfl | rfl <;> simp <;> split <;> simp_all
  | _ =>
      rw [Update.answerTo_of_none rfl, Option.toList_none, List.map_eq_nil_iff,
        List.filter_eq_nil_iff]
      intro c hc
      obtain ⟨hpost, hcomment⟩ := edgeLabel_of_mem_calls rfl c hc
      rcases hlabel with rfl | rfl <;> simp [hpost, hcomment]

/-- A new comment comes to the end of the replies. -/
theorem inNeighbors_applyUpdate (hmirrored : g.Mirrored) {u : Update}
    (hfresh : ∀ vid ∈ u.commentVid, g.Fresh vid) (msgVid : VertexId) {edgeLabel : EdgeLabel}
    (hlabel : edgeLabel = .replyOfPost ∨ edgeLabel = .replyOfComment) :
    (g.applyUpdate u).inNeighborsCached msgVid edgeLabel =
      g.inNeighborsCached msgVid edgeLabel ++ (u.answerTo edgeLabel msgVid).toList := by
  rw [SnbGraph.inNeighborsCached, toSnbGraph_applyUpdate, getD_adjacency_insertEdges,
    dstsUnder_reverse_update u msgVid hlabel]
  cases hanswer : u.answerTo edgeLabel msgVid with
  | none => simp [SnbGraph.inNeighborsCached]
  | some vid =>
      have hcomment : u.commentVid = some vid := by
        rw [Update.answerTo] at hanswer
        split at hanswer
        · exact hanswer
        · cases hanswer
      -- it has replied to nothing so far, and so it is not among the replies
      have hnew : vid ∉ g.inNeighborsCached msgVid edgeLabel := by
        intro hmem
        have hne : edgeLabel ≠ .knows := by rcases hlabel with rfl | rfl <;> decide
        have hout : msgVid ∈ g.outNeighborsCached vid edgeLabel :=
          (hmirrored.edges _ _ (.reverse vid msgVid edgeLabel hne)).mpr hmem
        have hnone := hfresh vid hcomment
        rcases hlabel with rfl | rfl
        · rw [hnone.post] at hout
          cases hout
        · rw [hnone.comment] at hout
          cases hout
      exact if_neg hnew

/-- The run lemma: comments are listed as they arrive. -/
theorem inNeighbors_foldl (hmirrored : g.Mirrored) {updates : List Update}
    (hthreaded : g.Threaded updates) (msgVid : VertexId) {edgeLabel : EdgeLabel}
    (hlabel : edgeLabel = .replyOfPost ∨ edgeLabel = .replyOfComment) :
    (updates.foldl applyUpdate g).inNeighborsCached msgVid edgeLabel =
      g.inNeighborsCached msgVid edgeLabel ++ updates.filterMap (Update.answerTo edgeLabel msgVid) := by
  induction updates generalizing g with
  | nil => simp
  | cons u updates ih =>
      have hfresh : ∀ vid ∈ u.commentVid, g.Fresh vid := hthreaded.fresh u List.mem_cons_self
      rw [List.foldl_cons, ih ((extends_applyUpdate g u).mirrored hmirrored) hthreaded.tail,
        inNeighbors_applyUpdate hmirrored hfresh msgVid hlabel, List.append_assoc, List.filterMap_cons]
      cases u.answerTo edgeLabel msgVid <;> rfl

/-- A flag says who knows whom, and so it could be looked up at either person. -/
theorem knows_of_collectIs7Reply (hmirrored : g.Mirrored) {author replyVid : VertexId} {row : Is7Row}
    (h : g.collectIs7Reply (g.toOpen.knowsNeighbors author) replyVid = some row) :
    row.replyAuthorKnowsOriginalMessageAuthor = true ↔
      ∃ replyAuthor, g.toOpen.messageCreatorVid replyVid = some replyAuthor ∧
        author ∈ g.outNeighborsCached replyAuthor .knows := by
  simp only [collectIs7Reply, Option.bind_eq_bind, Option.bind_eq_some_iff, Option.some.injEq] at h
  obtain ⟨comment, -, authorVid, hauthor, person, -, rfl⟩ := h
  have hmirror := hmirrored.edges _ _ (.knows author authorVid)
  rw [hauthor, decide_eq_true_iff]
  constructor
  · intro hknows
    exact ⟨authorVid, rfl, hmirror.mp hknows⟩
  · rintro ⟨w, hw, hknows⟩
    obtain rfl := Option.some.inj hw
    exact hmirror.mpr hknows

/-- **IS7.** After any run of requests by which comments arrive once and before the replies to them, the
answer for a message has a row for every reply to it, the latest first and those of one person and one
time in the order in which they arrived: first the replies that were there, then those of the run. The
flag of a row is that of the edge in either direction. -/
theorem is7_serve (hmirrored : g.Mirrored) {requests : List (String × Json)}
    (hthreaded : g.Threaded (requests.filterMap fun r => readRequest r.1 r.2)) :
    let updates := requests.filterMap fun r => readRequest r.1 r.2
    let served := g.serve requests
    ∀ messageId msgVid author, served.messageVid messageId = some msgVid →
      served.toOpen.messageCreatorVid msgVid = some author →
        let collect := served.collectIs7Reply (served.toOpen.knowsNeighbors author)
        let replies edgeLabel := g.inNeighborsCached msgVid edgeLabel ++
          updates.filterMap (Update.answerTo edgeLabel msgVid)
        served.is7 messageId =
            sortByKey Is7Row.key ((replies .replyOfPost ++ replies .replyOfComment).filterMap collect) ∧
          ∀ replyVid row, collect replyVid = some row →
            (row.replyAuthorKnowsOriginalMessageAuthor = true ↔
              ∃ replyAuthor, served.toOpen.messageCreatorVid replyVid = some replyAuthor ∧
                author ∈ served.outNeighborsCached replyAuthor .knows) := by
  intro updates served messageId msgVid author hmsg hauthor collect replies
  have hserved : served = updates.foldl applyUpdate g := serve_eq g requests
  have hreplies : ∀ edgeLabel, edgeLabel = .replyOfPost ∨ edgeLabel = .replyOfComment →
      served.inNeighborsCached msgVid edgeLabel = replies edgeLabel := by
    intro edgeLabel hlabel
    rw [hserved, inNeighbors_foldl hmirrored hthreaded msgVid hlabel]
  constructor
  · simp only [is7, hmsg, hauthor]
    rw [hreplies _ (Or.inl rfl), hreplies _ (Or.inr rfl)]
  · intro replyVid row hrow
    have hlater : served.Mirrored := by
      rw [hserved]
      exact (extends_foldl_applyUpdate g updates).mirrored hmirrored
    exact knows_of_collectIs7Reply hlater hrow

/-- A graph with nothing in it. -/
def nothing : StoredGraph := ⟨⟨fun _ => none, fun _ => none⟩, Stored.loadVertices []⟩

theorem mirrored_nothing : nothing.Mirrored where
  edges _ _ _ := iff_of_false List.not_mem_nil List.not_mem_nil
  props _ _ _ := rfl
  nodup _ := List.nodup_nil

/-- Ada writes a post, and two replies to it at one time. -/
def replies : List Update :=
  [.addPerson ⟨⟨1, "Ada", "", "", 0, 0, "", "", "", ""⟩, 9⟩ [] [] [],
    .addPost ⟨⟨10, "", 5, "why"⟩, "", "", "", 3, 1, 3, 1⟩ [],
    .addComment ⟨⟨21, 6, "so"⟩, "", "", 2, 1, 1, some 10, none⟩ [],
    .addComment ⟨⟨20, 6, "as"⟩, "", "", 2, 1, 1, some 10, none⟩ []]

theorem postable_replies : ∀ u ∈ replies, u.Postable := by decide

theorem threaded_replies : nothing.Threaded replies where
  fresh _ _ _ _ := ⟨rfl, rfl, fun _ => List.not_mem_nil⟩
  order := by
    have hne : encodeVid .comment 21 ≠ encodeVid .comment 20 := by decide +kernel
    simpa [replies, Update.commentVid, Update.replyTo] using hne

theorem is7_serve_replies :
    (nothing.serve (replies.map Update.request)).is7 10 =
      [⟨21, "so", 6, 1, "Ada", "", false⟩, ⟨20, "as", 6, 1, "Ada", "", false⟩] := by
  have hread := readRequests_of_updates postable_replies
  have hanswer := (is7_serve mirrored_nothing (hread.symm ▸ threaded_replies) 10 (encodeVid .post 10)
    (encodeVid .person 1) (by rw [serve_eq, hread]; decide +kernel)
    (by rw [serve_eq, hread]; decide +kernel)).1
  rw [hanswer, serve_eq, hread]
  decide +kernel

/-! ## IS2 -/

structure Is2Row where
  messageId : Int64
  messageContent : String
  messageCreationDate : Int64
  originalPostId : Int64
  originalPostAuthorId : Int64
  originalPostAuthorFirstName : String
  originalPostAuthorLastName : String
  deriving DecidableEq, Repr

def Is2Row.key (row : Is2Row) : Int64ᵒᵈ ×ₗ Int64 := recencyKey row.messageCreationDate row.messageId

variable (g)

/-- The row of a message, when the root of its thread has been looked for. -/
def is2Row (msgVid : VertexId) (root : Option VertexId) : Option Is2Row := do
  let (messageId, creationDate, content) ← g.toOpen.messageSummary msgVid
  let postVid ← root
  let post ← g.toOpen.post postVid
  let authorVid ← g.toOpen.messageCreatorVid postVid
  let author ← g.person authorVid
  some
    { messageId
      messageContent := content
      messageCreationDate := creationDate
      originalPostId := post.id
      originalPostAuthorId := author.id
      originalPostAuthorFirstName := author.firstName
      originalPostAuthorLastName := author.lastName }

/-- The body of the loop; the outer `none` is a walk that is out of fuel. -/
def is2Message (fuel : Nat) (msgVid : VertexId) : Option (Option Is2Row) :=
  if g.toOpen.messageSummary msgVid = none then some none
  else (g.toOpen.rootPostVid fuel msgVid).map (g.is2Row msgVid)

def is2 (fuel : Nat) (personId : Int64) (limit : Nat) : Option (List Is2Row) :=
  let personVid := encodeVid .person personId
  if g.person personVid = none then some []
  else ((g.toOpen.inMessagesCreators personVid).mapM (g.is2Message fuel)).map fun rows =>
    (sortByKey Is2Row.key rows.reduceOption).take limit

/-- The answer of `is2`, for these roots: a row for every message whose thread has a post with an
author, the latest first. -/
def MessageRows (root : VertexId → Option VertexId) (personVid : VertexId) :
    Nat → List Is2Row → Prop :=
  TopRows
    (fun c : VertexId × Is2Row =>
      c.1 ∈ g.toOpen.inMessagesCreators personVid ∧ g.is2Row c.1 (root c.1) = some c.2)
    (fun c => c.2.key) Prod.snd

/-- The root of a message, by a table of the roots of comments. -/
def rootBy (roots : VertexId → Option VertexId) (msgVid : VertexId) : Option VertexId :=
  if g.toOpen.post msgVid ≠ none then some msgVid else roots msgVid

variable {g}

theorem is2_found (hnodup : NoDuplicates g.adjacency) :
    ∃ n, ∀ fuel, n < fuel → ∀ personId, g.person (encodeVid .person personId) ≠ none → ∀ limit,
      ∃ answer, g.is2 fuel personId limit = some answer ∧
        g.MessageRows g.toOpen.rootOf (encodeVid .person personId) limit answer := by
  obtain ⟨n, hn⟩ := g.toOpen.rootPostVid_eq_rootOf
  refine ⟨n, fun fuel hfuel personId hperson limit => ?_⟩
  let msgs := g.toOpen.inMessagesCreators (encodeVid .person personId)
  let make (msgVid : VertexId) := g.is2Row msgVid (g.toOpen.rootOf msgVid)
  have hmessage : ∀ msgVid ∈ msgs, g.is2Message fuel msgVid = some (make msgVid) := by
    intro msgVid _
    rw [is2Message, hn fuel hfuel, Option.map_some]
    split
    · rename_i hnone
      simp only [make, is2Row, hnone]
      rfl
    · rfl
  have hmsgs : msgs.Nodup := (hnodup _).filter _
  refine ⟨_, ?_, topRows_pairs hmsgs make Is2Row.key limit⟩
  rw [is2, if_neg hperson, mapM_eq_some_map hmessage, Option.map_some, List.reduceOption,
    List.filterMap_map]
  rfl

/-- The walk is the table. -/
theorem rootOf_serve {roots : VertexId → Option VertexId} (h : g.RootsOf roots)
    {updates : List Update} (hthreaded : g.Threaded updates) :
    (updates.foldl applyUpdate g).toOpen.rootOf =
      (updates.foldl applyUpdate g).rootBy (updates.foldl noteRoot roots) := by
  funext msgVid
  refine Option.ext fun postVid => ?_
  rw [OpenGraph.rootOf_eq_some, rootBy]
  split
  · rename_i hpost
    rw [OpenGraph.rootPost_of_post hpost, Option.some.injEq, eq_comm]
  · rename_i hpost
    rw [OpenGraph.rootPost_of_none (not_not.mp hpost), rootsOf_foldl h hthreaded msgVid postVid]

/-- Under which vertex id a message is stored. -/
theorem vid_of_messageSummary (hkeys : Stored.WellKeyed g.vertices) {msgVid : VertexId}
    {summary : Int64 × Int64 × String} (h : g.toOpen.messageSummary msgVid = some summary) :
    g.toOpen.comment msgVid ≠ none ∧ msgVid = encodeVid .comment summary.1 ∨
      g.toOpen.post msgVid ≠ none ∧ msgVid = encodeVid .post summary.1 := by
  rw [OpenGraph.messageSummary, OpenGraph.comment, OpenGraph.post, toOpen] at h
  rw [OpenGraph.comment, OpenGraph.post, toOpen]
  dsimp only at h ⊢
  cases hget : g.vertices.get msgVid with
  | none =>
      rw [hget] at h
      cases h
  | some data =>
      have hvid := hkeys msgVid data hget
      rw [hget] at h
      cases data with
      | comment c =>
          cases h
          exact Or.inl ⟨Option.some_ne_none _, hvid⟩
      | post p =>
          cases h
          exact Or.inr ⟨Option.some_ne_none _, hvid⟩
      | _ => cases h

/-- Where no post and no comment have one id, the rows tell the messages apart. -/
theorem MessageRows.unique (hkeys : Stored.WellKeyed g.vertices)
    (hids : ∀ id, g.toOpen.post (encodeVid .post id) = none ∨
      g.toOpen.comment (encodeVid .comment id) = none)
    {root : VertexId → Option VertexId} {personVid : VertexId} {limit : Nat} {rows rows' : List Is2Row}
    (h : g.MessageRows root personVid limit rows) (h' : g.MessageRows root personVid limit rows') :
    rows = rows' := by
  refine TopRows.unique h h' fun a b ha hb hkey => ?_
  have hsummary : ∀ {c : VertexId × Is2Row}, g.is2Row c.1 (root c.1) = some c.2 →
      ∃ summary, g.toOpen.messageSummary c.1 = some summary ∧ summary.1 = c.2.messageId := by
    rintro ⟨msgVid, row⟩ hrow
    simp only [is2Row, Option.bind_eq_bind, Option.bind_eq_some_iff, Option.some.injEq] at hrow
    obtain ⟨summary, hsummary, -, -, -, -, -, -, -, -, rfl⟩ := hrow
    exact ⟨summary, hsummary, rfl⟩
  obtain ⟨sa, hsa, hida⟩ := hsummary ha.2
  obtain ⟨sb, hsb, hidb⟩ := hsummary hb.2
  have hid : sa.1 = sb.1 := by rw [hida, hidb, (recencyKey_inj hkey).2]
  have hvid : a.1 = b.1 := by
    rcases vid_of_messageSummary hkeys hsa with ⟨hca, hva⟩ | ⟨hpa, hva⟩ <;>
      rcases vid_of_messageSummary hkeys hsb with ⟨hcb, hvb⟩ | ⟨hpb, hvb⟩
    · rw [hva, hvb, hid]
    · rw [hvb] at hpb
      rw [hva, hid] at hca
      exact absurd (hids sb.1) (not_or.mpr ⟨hpb, hca⟩)
    · rw [hvb] at hcb
      rw [hva, hid] at hpa
      exact absurd (hids sb.1) (not_or.mpr ⟨hpa, hcb⟩)
    · rw [hva, hvb, hid]
  have hrow := ha.2
  rw [hvid, hb.2] at hrow
  exact (Option.some.inj hrow).symm

/-- **IS2.** After any run of requests by which comments arrive once and before the replies to them, the
search for the roots ends, and the answer is the latest messages of the person, each with the post that a
table of roots has for it, into which every comment was entered when it arrived; messages without such a
post are left out. If no post and no comment have one id, no other list is an answer. -/
theorem is2_serve {roots : VertexId → Option VertexId} (h : g.RootsOf roots) (hmirrored : g.Mirrored)
    {requests : List (String × Json)}
    (hthreaded : g.Threaded (requests.filterMap fun r => readRequest r.1 r.2)) :
    let updates := requests.filterMap fun r => readRequest r.1 r.2
    let served := g.serve requests
    let root := served.rootBy (updates.foldl noteRoot roots)
    ∃ n, ∀ fuel, n < fuel → ∀ personId, served.person (encodeVid .person personId) ≠ none → ∀ limit,
      ∃ answer, served.is2 fuel personId limit = some answer ∧
        served.MessageRows root (encodeVid .person personId) limit answer ∧
        (Stored.WellKeyed g.vertices →
          (∀ id, served.toOpen.post (encodeVid .post id) = none ∨
            served.toOpen.comment (encodeVid .comment id) = none) →
          ∀ rows, served.MessageRows root (encodeVid .person personId) limit rows → answer = rows) := by
  intro updates served root
  have hserved : served = updates.foldl applyUpdate g := serve_eq g requests
  have hextends := extends_foldl_applyUpdate g updates
  rw [← hserved] at hextends
  have hroot : served.toOpen.rootOf = root := by
    show served.toOpen.rootOf = served.rootBy _
    rw [hserved]
    exact rootOf_serve h hthreaded
  obtain ⟨n, hn⟩ := is2_found (hextends.mirrored hmirrored).nodup
  rw [hroot] at hn
  refine ⟨n, fun fuel hfuel personId hperson limit => ?_⟩
  obtain ⟨answer, hanswer, hrows⟩ := hn fuel hfuel personId hperson limit
  exact ⟨answer, hanswer, hrows, fun hkeys hids rows hrows' =>
    hrows.unique (hextends.wellKeyed hkeys) hids hrows'⟩

theorem rootsOf_nothing : nothing.RootsOf fun _ => none := by
  intro v postVid
  have hstep : nothing.toOpen.replyStep v = .inr none := rfl
  exact iff_of_false nofun fun h => nomatch (Chains.endsWith_of_inr hstep).unique h

theorem is2_serve_replies :
    let served := nothing.serve (replies.map Update.request)
    ∃ n, ∀ fuel, n < fuel → ∃ answer, served.is2 fuel 1 2 = some answer ∧
      served.MessageRows (served.rootBy (replies.foldl noteRoot fun _ => none)) (encodeVid .person 1) 2
        answer := by
  have hread := readRequests_of_updates postable_replies
  obtain ⟨n, hn⟩ := is2_serve rootsOf_nothing mirrored_nothing (hread.symm ▸ threaded_replies)
  rw [hread] at hn
  refine ⟨n, fun fuel hfuel => ?_⟩
  obtain ⟨answer, hanswer, hrows, -⟩ := hn fuel hfuel 1 (by rw [serve_eq, hread]; decide +kernel) 2
  exact ⟨answer, hanswer, hrows⟩

/-! ## IS4 and IS5 -/

structure Is4Row where
  messageCreationDate : Int64
  messageContent : String
  deriving DecidableEq, Repr

structure Is5Row where
  personId : Int64
  firstName : String
  lastName : String
  deriving DecidableEq, Repr

variable (g)

def is4 (messageId : Int64) : Option Is4Row := do
  let msgVid ← g.messageVid messageId
  let (_, creationDate, content) ← g.toOpen.messageSummary msgVid
  some ⟨creationDate, content⟩

def is5 (messageId : Int64) : Option Is5Row := do
  let msgVid ← g.messageVid messageId
  let creatorVid ← g.toOpen.messageCreatorVid msgVid
  let person ← g.person creatorVid
  some ⟨person.id, person.firstName, person.lastName⟩

variable {g}

/-- An update lists only the creator of its own message. -/
theorem dstsUnder_hasCreator (u : Update) (vid : VertexId) :
    dstsUnder (vid, EdgeLabel.hasCreator.asI32) (insertionsOf u.toSnb.calls) =
      u.creatorsOf vid := by
  rw [dstsUnder_insertionsOf]
  have htags : ∀ (src : VertexId) (tags : List Int64),
      ((tags.flatMap fun tag => ownEdge src .tag .hasTag tag).filter
        fun call => call.src = vid ∧ call.edgeLabel = .hasCreator) = [] := by
    intro src tags
    rw [List.filter_eq_nil_iff]
    simp only [List.forall_mem_flatMap, forall_mem_ownEdge]
    simp
  cases u with
  | addPost p tags =>
      rw [Update.toSnb, SnbUpdate.calls, applyAddPost, List.filter_append, htags, List.append_nil]
      by_cases h : encodeVid .post p.id = vid <;>
        simp [Update.creatorsOf, Update.message, ownEdge, edgeCalls, h]
  | addComment c tags =>
      rw [Update.toSnb, SnbUpdate.calls, applyAddComment, List.filter_append, htags, List.append_nil]
      rcases c with ⟨c, -, -, -, creator, -, post | post, parent | parent⟩ <;>
        by_cases h : encodeVid .comment c.id = vid <;>
          simp [Update.creatorsOf, Update.message, ownEdge, edgeCalls, h]
  | _ =>
      simp only [Update.creatorsOf, Update.message, Option.toList_none, List.filter_nil, List.map_nil]
      rw [List.map_eq_nil_iff, List.filter_eq_nil_iff]
      simp only [Update.toSnb, SnbUpdate.calls, applyAddPerson, applyAddForum,
        applyBinaryUpdateEdge, List.forall_mem_append, List.forall_mem_flatMap, forall_mem_ownEdge]
      simp [edgeCalls]

theorem creatorsOf_of_ne {vid : VertexId} {updates : List Update}
    (h : ∀ v ∈ updates, ∀ m ∈ v.message, m.vid ≠ vid) :
    updates.flatMap (Update.creatorsOf vid) = [] := by
  rw [List.flatMap_eq_nil_iff]
  intro v hv
  rw [Update.creatorsOf, List.map_eq_nil_iff, List.filter_eq_nil_iff]
  intro m hm
  simpa using h v hv m (Option.mem_toList.mp hm)

/-- A run lists the creators that its updates list. -/
theorem dstsUnder_hasCreator_updates (updates : List Update) (vid : VertexId) :
    dstsUnder (vid, EdgeLabel.hasCreator.asI32) (insertionsOfUpdates updates) =
      updates.flatMap (Update.creatorsOf vid) := by
  rw [insertionsOfUpdates, insertionsOf_flatMap, List.flatMap_map]
  induction updates with
  | nil => rfl
  | cons u updates ih =>
      rw [List.flatMap_cons, List.flatMap_cons, ← ih, ← dstsUnder_hasCreator]
      simp [dstsUnder]

/-- The creator of a message after a run in which one update sends it. -/
theorem creator_foldl {m : SentMessage} {before after : List Update} {u : Update}
    (hu : u.message = some m) (hother : ∀ v ∈ before ++ after, ∀ m' ∈ v.message, m'.vid ≠ m.vid)
    (hnone : g.outNeighborsCached m.vid .hasCreator = []) :
    ((before ++ u :: after).foldl applyUpdate g).outNeighborsCached m.vid .hasCreator =
      [encodeVid .person m.creator] := by
  have hown : u.creatorsOf m.vid = [encodeVid .person m.creator] := by
    simp [Update.creatorsOf, hu]
  rw [toSnbGraph_foldl_applyUpdate, SnbGraph.outNeighborsCached, getD_adjacency_insertEdges]
  have hlist : dstsUnder (m.vid, EdgeLabel.hasCreator.asI32)
      (insertionsOfUpdates (before ++ u :: after)) = [encodeVid .person m.creator] := by
    rw [dstsUnder_hasCreator_updates, List.flatMap_append, List.flatMap_cons, hown,
      creatorsOf_of_ne fun v hv => hother v (List.mem_append_left _ hv),
      creatorsOf_of_ne fun v hv => hother v (List.mem_append_right _ hv)]
    rfl
  rw [hlist]
  exact congrArg (appendNew · _) hnone

/-- A vertex stays as it is as long as no update stores another under its id. -/
theorem get_foldl_of_ne {vid : VertexId} {updates : List Update}
    (h : ∀ u ∈ updates, ∀ row ∈ u.vertexRow, row.vid ≠ vid) :
    (updates.foldl applyUpdate g).vertices.get vid = g.vertices.get vid := by
  induction updates generalizing g with
  | nil => rfl
  | cons u updates ih =>
      obtain ⟨hu, hrest⟩ := List.forall_mem_cons.mp h
      rw [List.foldl_cons, ih hrest, applyUpdate]
      cases hrow : u.vertexRow with
      | none => rfl
      | some row =>
          dsimp only
          rw [Tally.Table.get_insert, if_neg (hu row hrow).symm]

/-- What is stored under the id of a message that is sent once. -/
theorem stored_foldl {before after : List Update} {u : Update} {row : Stored.VertexRow}
    (hrow : u.vertexRow = some row) (hother : ∀ v ∈ after, ∀ row' ∈ v.vertexRow, row'.vid ≠ row.vid) :
    ((before ++ u :: after).foldl applyUpdate g).vertices.get row.vid = some row.data := by
  rw [List.foldl_append, List.foldl_cons, get_foldl_of_ne hother, applyUpdate, hrow]
  dsimp only
  rw [Tally.Table.get_insert, if_pos rfl]

theorem post_of_stored {vid : VertexId} {p : Stored.PostProps}
    (h : g.vertices.get vid = some (.post p)) : g.toOpen.post vid = some p.toPostProps := by
  rw [OpenGraph.post, toOpen]
  dsimp only
  rw [h]
  rfl

theorem comment_of_stored {vid : VertexId} {c : Stored.CommentProps}
    (h : g.vertices.get vid = some (.comment c)) : g.toOpen.comment vid = some c.toCommentProps := by
  rw [OpenGraph.comment, toOpen]
  dsimp only
  rw [h]
  rfl

end StoredGraph

end LsmGraph
