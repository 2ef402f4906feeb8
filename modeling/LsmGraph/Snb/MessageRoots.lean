import LsmGraph.BaseGraph.Roots
import LsmGraph.Snb.HttpUpdates
import Mathlib.Data.Fintype.Order

/-! # The post at the root of a thread

`root_post_vid` goes from a comment to what it replies to until it comes to a post, and remembers where
it has been, so that it ends on any graph (`rootPostVid_eq_rootOf`). What it finds after a run of updates is
what a table would hold that is filled in as the comments arrive, each with the root of its parent
(`rootsOf_serve`), as long as no comment is sent twice or before one that it replies to. -/

namespace LsmGraph

open Chains UpdateStream

/-- Where the loop of `root_post_vid` goes: a post ends it, and so does a comment that replies to
nothing. -/
def nextReply : Option VertexId → Option VertexId → VertexId ⊕ Option VertexId
  | some postVid, _ => .inr (some postVid)
  | none, some parent => .inl parent
  | none, none => .inr none

namespace OpenGraph

variable (g : OpenGraph)

/-- The replies lead to the post, or the message is the post itself. -/
def RootPost (msgVid postVid : VertexId) : Prop :=
  if (g.post msgVid).isSome then postVid = msgVid else EndsWith g.replyStep msgVid (some postVid)

open Classical in
noncomputable def rootOf (msgVid : VertexId) : Option VertexId :=
  if h : ∃ postVid, g.RootPost msgVid postVid then some h.choose else none

variable {g}

theorem replyStep_eq_nextReply (msgVid : VertexId) :
    g.replyStep msgVid = nextReply (g.outNeighborsCached msgVid .replyOfPost).head?
      (g.outNeighborsCached msgVid .replyOfComment).head? := by
  rw [replyStep]
  cases (g.outNeighborsCached msgVid .replyOfPost).head? with
  | some postVid => rfl
  | none => cases (g.outNeighborsCached msgVid .replyOfComment).head? <;> rfl

theorem rootPost_of_post {msgVid postVid : VertexId} (h : g.post msgVid ≠ none) :
    g.RootPost msgVid postVid ↔ postVid = msgVid := by
  rw [RootPost, if_pos (Option.isSome_iff_ne_none.mpr h)]

theorem rootPost_of_none {msgVid postVid : VertexId} (h : g.post msgVid = none) :
    g.RootPost msgVid postVid ↔ EndsWith g.replyStep msgVid (some postVid) := by
  rw [RootPost, h, Option.isSome_none, if_neg Bool.false_ne_true]

theorem RootPost.unique {msgVid postVid postVid' : VertexId} (h : g.RootPost msgVid postVid)
    (h' : g.RootPost msgVid postVid') : postVid = postVid' := by
  rw [RootPost] at h h'
  split at h
  · rw [if_pos ‹_›] at h'
    rw [h, h']
  · rw [if_neg ‹_›] at h'
    exact Option.some.inj (h.unique h')

theorem rootOf_eq_some {msgVid postVid : VertexId} :
    g.rootOf msgVid = some postVid ↔ g.RootPost msgVid postVid := by
  rw [rootOf]
  split
  · rename_i h
    rw [Option.some.injEq]
    exact ⟨fun heq => heq ▸ h.choose_spec, fun hroot => h.choose_spec.unique hroot⟩
  · rename_i h
    exact iff_of_false nofun fun hroot => h ⟨postVid, hroot⟩

/-- **The walk ends on any graph**, also where replies go round in a circle, with the root if there is
one; for all messages there is one bound on the length of the walk. -/
theorem rootPostVid_eq_rootOf (g : OpenGraph) :
    ∃ n, ∀ fuel, n < fuel → ∀ msgVid, g.rootPostVid fuel msgVid = some (g.rootOf msgVid) := by
  have hwalk : ∀ msgVid, ∃ n, ∀ fuel, n < fuel →
      g.rootPostVid fuel msgVid = some (g.rootOf msgVid) := by
    intro msgVid
    by_cases hpost : (g.post msgVid).isSome
    · refine ⟨0, fun fuel _ => ?_⟩
      rw [rootPostVid, if_pos hpost, Option.some.injEq, eq_comm, rootOf_eq_some, RootPost, if_pos hpost]
    · obtain ⟨result, hresult, n, hn⟩ := @walk_spec _ _ g.replyStep _ _ msgVid
      refine ⟨n, fun fuel hfuel => ?_⟩
      rw [rootPostVid, if_neg hpost, hn fuel hfuel, Option.map_some, Option.some.injEq]
      refine Option.ext fun postVid => ?_
      rw [rootOf_eq_some, RootPost, if_neg hpost, ← hresult, Option.join_eq_some_iff]
  choose n hn using hwalk
  obtain ⟨bound, hbound⟩ := Finite.exists_le n
  exact ⟨bound, fun fuel hfuel msgVid => hn msgVid fuel ((hbound msgVid).trans_lt hfuel)⟩

end OpenGraph

/-! ## What an update replies to -/

/-- The comment that an update adds. -/
def UpdateStream.Update.commentVid : Update → Option VertexId
  | addComment c _ => some (encodeVid .comment c.id)
  | _ => none

/-- The post or the comment that it replies to. -/
def UpdateStream.Update.replyTo (edgeLabel : EdgeLabel) : Update → Option VertexId
  | addComment c _ =>
      match edgeLabel with
      | .replyOfPost => c.replyOfPost.map (encodeVid .post)
      | .replyOfComment => c.replyOfComment.map (encodeVid .comment)
      | _ => none
  | _ => none

/-- What calls list under a label of the forward direction. -/
theorem dstsUnder_insertionsOf (vid : VertexId) (edgeLabel : EdgeLabel) (calls : List EdgeCall) :
    dstsUnder (vid, edgeLabel.asI32) (insertionsOf calls) =
      (calls.filter fun c => c.src = vid ∧ c.edgeLabel = edgeLabel).map EdgeCall.dst := by
  induction calls with
  | nil => rfl
  | cons c calls ih =>
      have hrest : insertionsOf (c :: calls) = c.insertions ++ insertionsOf calls := rfl
      rw [hrest, dstsUnder, List.filter_append, List.map_append]
      refine (congrArg (_ ++ ·) ih).trans ?_
      rw [List.filter_cons, EdgeCall.insertions]
      have hreverse : ∀ l : EdgeLabel, -l.asI32 ≠ edgeLabel.asI32 := fun l =>
        (asI32_ne_neg edgeLabel l).symm
      cases c.includeReverse <;>
        by_cases h : c.src = vid ∧ c.edgeLabel = edgeLabel <;>
          simp [EdgeInsertion.key, asI32_inj, hreverse, h]

theorem forall_mem_ownEdge {p : EdgeCall → Prop} {src : VertexId} {dstLabel : VertexLabel}
    {edgeLabel : EdgeLabel} {dst : Int64} {prop : EdgeProp} :
    (∀ c ∈ ownEdge src dstLabel edgeLabel dst prop, p c) ↔
      p ⟨src, encodeVid dstLabel dst, edgeLabel, prop, true⟩ :=
  List.forall_mem_singleton

/-- Only comments reply. -/
theorem edgeLabel_of_mem_calls {u : Update} (hu : u.commentVid = none) :
    ∀ c ∈ u.toSnb.calls, c.edgeLabel ≠ .replyOfPost ∧ c.edgeLabel ≠ .replyOfComment := by
  cases u with
  | addComment c tags => cases hu
  | _ =>
      simp only [Update.toSnb, SnbUpdate.calls, applyAddPerson, applyAddForum, applyAddPost,
        applyBinaryUpdateEdge, List.forall_mem_append, List.forall_mem_flatMap, forall_mem_ownEdge]
      simp [edgeCalls]

/-- What an update lists among the replies. -/
theorem dstsUnder_update (u : Update) (vid : VertexId) {edgeLabel : EdgeLabel}
    (hlabel : edgeLabel = .replyOfPost ∨ edgeLabel = .replyOfComment) :
    dstsUnder (vid, edgeLabel.asI32) (insertionsOf u.toSnb.calls) =
      if u.commentVid = some vid then (u.replyTo edgeLabel).toList else [] := by
  rw [dstsUnder_insertionsOf]
  cases u with
  | addComment c tags =>
      have htags : ((tags.flatMap fun tag => ownEdge (encodeVid .comment c.id) .tag .hasTag tag).filter
          fun call => call.src = vid ∧ call.edgeLabel = edgeLabel) = [] := by
        rw [List.filter_eq_nil_iff]
        simp only [List.forall_mem_flatMap, forall_mem_ownEdge]
        rcases hlabel with rfl | rfl <;> simp
      rw [Update.toSnb, SnbUpdate.calls, applyAddComment, List.filter_append, htags, List.append_nil]
      simp only [Update.commentVid, Update.replyTo, ownEdge, edgeCalls]
      rcases hlabel with rfl | rfl <;>
        cases c.replyOfPost <;> cases c.replyOfComment <;>
          by_cases h : encodeVid .comment c.id = vid <;> simp [h]
  | _ =>
      simp only [Update.commentVid, reduceCtorEq, if_false]
      rw [List.map_eq_nil_iff, List.filter_eq_nil_iff]
      intro c hc
      obtain ⟨hpost, hcomment⟩ := edgeLabel_of_mem_calls rfl c hc
      rcases hlabel with rfl | rfl <;> simp [hpost, hcomment]

namespace StoredGraph

theorem outNeighbors_applyUpdate (g : StoredGraph) (u : Update) (vid : VertexId)
    {edgeLabel : EdgeLabel} (hlabel : edgeLabel = .replyOfPost ∨ edgeLabel = .replyOfComment) :
    (g.applyUpdate u).outNeighborsCached vid edgeLabel =
      (if u.commentVid = some vid then (u.replyTo edgeLabel).toList else []).foldl appendNew
        (g.outNeighborsCached vid edgeLabel) := by
  rw [SnbGraph.outNeighborsCached, toSnbGraph_applyUpdate, getD_adjacency_insertEdges,
    dstsUnder_update u vid hlabel]
  rfl

/-- The comment replies to nothing yet, and nothing to it. -/
structure Fresh (g : StoredGraph) (vid : VertexId) : Prop where
  post : g.outNeighborsCached vid .replyOfPost = []
  comment : g.outNeighborsCached vid .replyOfComment = []
  unanswered : ∀ v, vid ∉ g.outNeighborsCached v .replyOfComment

/-- A table of the roots of all comments. -/
def RootsOf (g : StoredGraph) (roots : VertexId → Option VertexId) : Prop :=
  ∀ vid postVid, roots vid = some postVid ↔ EndsWith g.toOpen.replyStep vid (some postVid)

/-- What a table of roots would note of an update. -/
def noteRoot (roots : VertexId → Option VertexId) (u : Update) : VertexId → Option VertexId :=
  match u.commentVid with
  | none => roots
  | some vid =>
      Function.update roots vid
        ((u.replyTo .replyOfPost).or ((u.replyTo .replyOfComment).bind roots))

variable {g : StoredGraph} {u : Update} {vid : VertexId}

theorem Fresh.applyUpdate (h : g.Fresh vid) (hne : u.commentVid ≠ some vid)
    (hto : u.replyTo .replyOfComment ≠ some vid) : (g.applyUpdate u).Fresh vid where
  post := by rw [outNeighbors_applyUpdate g u vid (Or.inl rfl), if_neg hne]; exact h.post
  comment := by rw [outNeighbors_applyUpdate g u vid (Or.inr rfl), if_neg hne]; exact h.comment
  unanswered v hmem := by
    rw [outNeighbors_applyUpdate g u v (Or.inr rfl), foldl_appendNew, List.mem_append, newDsts,
      KeyedSort.mem_firstByKey_id] at hmem
    rcases hmem with hold | ⟨hnew, -⟩
    · exact h.unanswered v hold
    · split at hnew
      · exact hto (Option.mem_toList.mp hnew)
      · cases hnew

theorem replyStep_toOpen (g : StoredGraph) (vid : VertexId) :
    g.toOpen.replyStep vid = nextReply (g.outNeighborsCached vid .replyOfPost).head?
      (g.outNeighborsCached vid .replyOfComment).head? :=
  OpenGraph.replyStep_eq_nextReply vid

/-- An update leaves the steps from other comments. -/
theorem replyStep_of_ne (h : u.commentVid ≠ some vid) :
    (g.applyUpdate u).toOpen.replyStep vid = g.toOpen.replyStep vid := by
  rw [replyStep_toOpen, outNeighbors_applyUpdate g u vid (Or.inl rfl),
    outNeighbors_applyUpdate g u vid (Or.inr rfl), if_neg h, if_neg h, replyStep_toOpen]
  rfl

/-- The step from a new comment. -/
theorem replyStep_new (h : u.commentVid = some vid) (hfresh : g.Fresh vid) :
    (g.applyUpdate u).toOpen.replyStep vid =
      nextReply (u.replyTo .replyOfPost) (u.replyTo .replyOfComment) := by
  have hhead : ∀ reply : Option VertexId, (reply.toList.foldl appendNew []).head? = reply := by
    intro reply
    cases reply <;> rfl
  rw [replyStep_toOpen, outNeighbors_applyUpdate g u vid (Or.inl rfl),
    outNeighbors_applyUpdate g u vid (Or.inr rfl), if_pos h, if_pos h, hfresh.post, hfresh.comment,
    hhead, hhead]

theorem mem_of_replyStep {parent : VertexId} (h : g.toOpen.replyStep vid = .inl parent) :
    parent ∈ g.outNeighborsCached vid .replyOfComment := by
  rw [replyStep_toOpen] at h
  cases hpost : (g.outNeighborsCached vid .replyOfPost).head? with
  | some p =>
      rw [hpost] at h
      cases h
  | none =>
      cases hparent : (g.outNeighborsCached vid .replyOfComment).head? with
      | none =>
          rw [hpost, hparent] at h
          cases h
      | some q =>
          rw [hpost, hparent] at h
          cases h
          exact List.mem_of_mem_head? hparent

/-- The chains of other comments do not come to a new one, and so they stay as they are. -/
theorem endsWith_of_ne (hcomment : u.commentVid = some vid) (hfresh : g.Fresh vid) {v : VertexId}
    (hv : v ≠ vid) {result : Option VertexId} :
    EndsWith (g.applyUpdate u).toOpen.replyStep v result ↔ EndsWith g.toOpen.replyStep v result := by
  have hclosed : ∀ a a', a ≠ vid → g.toOpen.replyStep a = .inl a' → a' ≠ vid := by
    rintro a a' - hstep rfl
    exact hfresh.unanswered a (mem_of_replyStep hstep)
  have hsame : ∀ a, a ≠ vid → (g.applyUpdate u).toOpen.replyStep (id a) =
      (g.toOpen.replyStep a).map id id := by
    intro a ha
    rw [id_eq, replyStep_of_ne fun heq => ha (Option.some.inj (heq.symm.trans hcomment)),
      Sum.map_id_id, id_eq]
  exact (endsWith_map_iff hclosed hsame hv).trans exists_eq_right

/-- The chain of a new comment. -/
theorem endsWith_new {roots : VertexId → Option VertexId} (h : g.RootsOf roots)
    (hcomment : u.commentVid = some vid) (hfresh : g.Fresh vid) (postVid : VertexId) :
    (u.replyTo .replyOfPost).or ((u.replyTo .replyOfComment).bind roots) = some postVid ↔
      EndsWith (g.applyUpdate u).toOpen.replyStep vid (some postVid) := by
  have hstep := replyStep_new hcomment hfresh
  cases hpost : u.replyTo .replyOfPost with
  | some p =>
      rw [hpost] at hstep
      have hends := endsWith_of_inr hstep
      rw [Option.some_or]
      exact ⟨fun heq => heq ▸ hends, fun h' => hends.unique h'⟩
  | none =>
      rw [Option.none_or]
      cases hparent : u.replyTo .replyOfComment with
      | none =>
          rw [hpost, hparent] at hstep
          exact iff_of_false nofun fun h' => nomatch (endsWith_of_inr hstep).unique h'
      | some q =>
          rw [hpost, hparent] at hstep
          rw [Option.bind_some]
          by_cases hself : q = vid
          · subst hself
            refine iff_of_false (fun heq => ?_) fun h' => not_ends_of_self hstep ⟨_, h'⟩
            -- before, the comment replied to nothing
            have hold : g.toOpen.replyStep q = .inr none := by
              rw [replyStep_toOpen, hfresh.post, hfresh.comment]
              rfl
            cases (endsWith_of_inr hold).unique ((h q postVid).mp heq)
          · rw [endsWith_of_inl hstep, endsWith_of_ne hcomment hfresh hself, h]

/-- **Step lemma.** -/
theorem rootsOf_applyUpdate {roots : VertexId → Option VertexId} (h : g.RootsOf roots)
    (hfresh : ∀ vid ∈ u.commentVid, g.Fresh vid) :
    (g.applyUpdate u).RootsOf (noteRoot roots u) := by
  intro v postVid
  cases hcomment : u.commentVid with
  | none =>
      have hsame : (g.applyUpdate u).toOpen.replyStep = g.toOpen.replyStep :=
        funext fun v => replyStep_of_ne (hcomment ▸ nofun)
      rw [noteRoot, hcomment, hsame]
      exact h v postVid
  | some vid =>
      rw [noteRoot, hcomment]
      dsimp only
      by_cases hv : v = vid
      · subst hv
        rw [Function.update_self]
        exact endsWith_new h hcomment (hfresh v hcomment) postVid
      · rw [Function.update_of_ne hv, endsWith_of_ne hcomment (hfresh vid hcomment) hv]
        exact h v postVid

/-- No comment is sent that is there already, or a second time, or after a reply to it. -/
structure Threaded (g : StoredGraph) (updates : List Update) : Prop where
  fresh : ∀ u ∈ updates, ∀ vid ∈ u.commentVid, g.Fresh vid
  order : updates.Pairwise fun u v => ∀ vid ∈ v.commentVid,
    u.commentVid ≠ some vid ∧ u.replyTo .replyOfComment ≠ some vid

theorem Threaded.tail {updates : List Update} (h : g.Threaded (u :: updates)) :
    (g.applyUpdate u).Threaded updates := by
  obtain ⟨hlater, horder⟩ := List.pairwise_cons.mp h.order
  refine ⟨fun v hv vid hvid => ?_, horder⟩
  obtain ⟨hne, hto⟩ := hlater v hv vid hvid
  exact (h.fresh v (List.mem_cons_of_mem _ hv) vid hvid).applyUpdate hne hto

/-- The run lemma. -/
theorem rootsOf_foldl {roots : VertexId → Option VertexId} (h : g.RootsOf roots) {updates : List Update}
    (hthreaded : g.Threaded updates) :
    (updates.foldl applyUpdate g).RootsOf (updates.foldl noteRoot roots) := by
  induction updates generalizing g roots with
  | nil => exact h
  | cons u updates ih =>
      exact ih (rootsOf_applyUpdate h (hthreaded.fresh u List.mem_cons_self)) hthreaded.tail

/-- **The walk finds what a table would hold.** After any run of requests by which comments arrive once
and before the replies to them, the root that is found for a comment is the one that a table holds
into which every comment was entered with the root of its parent, when it arrived. -/
theorem rootPostVid_serve {roots : VertexId → Option VertexId} (h : g.RootsOf roots)
    {requests : List (String × Json)}
    (hthreaded : g.Threaded (requests.filterMap fun r => readRequest r.1 r.2)) :
    let updates := requests.filterMap fun r => readRequest r.1 r.2
    let served := (g.serve requests).toOpen
    ∃ n, ∀ fuel, n < fuel → ∀ vid, served.post vid = none →
      served.rootPostVid fuel vid = some (updates.foldl noteRoot roots vid) := by
  intro updates served
  obtain ⟨n, hn⟩ := served.rootPostVid_eq_rootOf
  refine ⟨n, fun fuel hfuel vid hpost => ?_⟩
  rw [hn fuel hfuel, Option.some.injEq]
  refine Option.ext fun postVid => ?_
  rw [OpenGraph.rootOf_eq_some, OpenGraph.rootPost_of_none hpost,
    rootsOf_foldl h hthreaded vid postVid, ← serve_eq]

/-- Post 10 is in forum 3, of which person 1 is the moderator. -/
def onePost : StoredGraph where
  edgeProps _ := none
  adjacency key := List.lookup key
    [ ((encodeVid .post 10, -EdgeLabel.containerOf.asI32), [encodeVid .forum 3]),
      ((encodeVid .forum 3, EdgeLabel.hasModerator.asI32), [encodeVid .person 1]) ]
  vertices := Stored.loadVertices <| List.map (fun data => ⟨Stored.VertexData.vid data, data⟩)
    [.person ⟨⟨1, "", "", "", 0, 0, "", "", "", ""⟩, 9⟩, .forum ⟨3, "proofs", 0, 1⟩,
      .post ⟨⟨10, "", 5, ""⟩, "", "", "", 0, 1, 3, 1⟩]

/-- Comment 20 replies to post 10, and comment 21 to comment 20. -/
def thread : List Update :=
  [.addComment ⟨⟨20, 6, ""⟩, "", "", 0, 1, 1, some 10, none⟩ [], .likePost 1 10 7,
    .addComment ⟨⟨21, 8, ""⟩, "", "", 0, 1, 1, none, some 20⟩ []]

theorem postable_thread : ∀ u ∈ thread, u.Postable := by decide

theorem outNeighbors_onePost (v : VertexId) {edgeLabel : EdgeLabel}
    (hlabel : edgeLabel = .replyOfPost ∨ edgeLabel = .replyOfComment) :
    onePost.outNeighborsCached v edgeLabel = [] := by
  have hnone : onePost.adjacency (v, edgeLabel.asI32) = none := by
    refine List.lookup_eq_none_iff.mpr fun entry hentry => ?_
    rw [bne_iff_ne]
    intro heq
    have htype : entry.1.2 = edgeLabel.asI32 := heq ▸ rfl
    rcases hlabel with rfl | rfl <;> rcases List.mem_pair.mp hentry with rfl | rfl <;>
      exact absurd htype (by decide)
  rw [SnbGraph.outNeighborsCached, hnone]
  rfl

theorem rootsOf_onePost : onePost.RootsOf fun _ => none := by
  intro v postVid
  have hstep : onePost.toOpen.replyStep v = .inr none := by
    rw [replyStep_toOpen, outNeighbors_onePost v (Or.inl rfl), outNeighbors_onePost v (Or.inr rfl)]
    rfl
  exact iff_of_false nofun fun h => nomatch (endsWith_of_inr hstep).unique h

theorem threaded_thread : onePost.Threaded thread where
  fresh _ _ vid _ :=
    { post := outNeighbors_onePost vid (Or.inl rfl)
      comment := outNeighbors_onePost vid (Or.inr rfl)
      unanswered := fun v => by
        rw [outNeighbors_onePost v (Or.inr rfl)]
        exact List.not_mem_nil }
  order := by
    have hne : encodeVid .comment 20 ≠ encodeVid .comment 21 := by decide +kernel
    simpa [thread, Update.commentVid, Update.replyTo] using hne

theorem rootPostVid_serve_thread :
    ∃ n, ∀ fuel, n < fuel →
      (onePost.serve (thread.map Update.request)).toOpen.rootPostVid fuel (encodeVid .comment 21) =
        some (some (encodeVid .post 10)) := by
  have hread := readRequests_of_updates postable_thread
  obtain ⟨n, hn⟩ := rootPostVid_serve rootsOf_onePost (hread.symm ▸ threaded_thread)
  refine ⟨n, fun fuel hfuel => (hn fuel hfuel _ ?_).trans ?_⟩
  · rw [serve_eq, hread]
    decide +kernel
  · rw [hread]
    decide +kernel

/-! ## IS6: the forum of a message -/

structure Is6Row where
  forumId : Int64
  forumTitle : String
  moderatorId : Int64
  moderatorFirstName : String
  moderatorLastName : String
  deriving DecidableEq, Repr

variable (g)

/-- `message_vid`: a post or else a comment. -/
def messageVid (messageId : Int64) : Option VertexId :=
  let postVid := encodeVid .post messageId
  if g.toOpen.post postVid ≠ none then some postVid
  else
    let commentVid := encodeVid .comment messageId
    if g.toOpen.comment commentVid ≠ none then some commentVid else none

/-- The row of a post. -/
def is6Row (postVid : VertexId) : Option Is6Row := do
  let forumVid ← (g.toOpen.inNeighborsCached postVid .containerOf).head?
  let forum ← g.forum forumVid
  let moderatorVid ← (g.toOpen.outNeighborsCached forumVid .hasModerator).head?
  let moderator ← g.person moderatorVid
  some ⟨forum.id, forum.title, moderator.id, moderator.firstName, moderator.lastName⟩

/-- The outer `none` is a walk that is out of fuel. -/
def is6 (fuel : Nat) (messageId : Int64) : Option (Option Is6Row) :=
  match g.messageVid messageId with
  | none => some none
  | some msgVid => (g.toOpen.rootPostVid fuel msgVid).map fun root => root.bind g.is6Row

variable {g}

/-- The step from a comment of a run stays what it was when the comment arrived. -/
theorem replyStep_foldl {updates : List Update} (h : g.Threaded updates) (hu : u ∈ updates)
    (hvid : u.commentVid = some vid) :
    (updates.foldl applyUpdate g).toOpen.replyStep vid =
      nextReply (u.replyTo .replyOfPost) (u.replyTo .replyOfComment) := by
  have hlater : ∀ (l : List Update) (g' : StoredGraph), (∀ v ∈ l, v.commentVid ≠ some vid) →
      (l.foldl applyUpdate g').toOpen.replyStep vid = g'.toOpen.replyStep vid := by
    intro l
    induction l with
    | nil => exact fun _ _ => rfl
    | cons v l ih =>
        intro g' hl
        obtain ⟨hv, hrest⟩ := List.forall_mem_cons.mp hl
        exact (ih (g'.applyUpdate v) hrest).trans (replyStep_of_ne hv)
  induction updates generalizing g with
  | nil => cases hu
  | cons w updates ih =>
      rcases List.mem_cons.mp hu with rfl | hin
      · rw [List.foldl_cons, hlater updates _ fun v hv heq => ?_]
        · exact replyStep_new hvid (h.fresh u List.mem_cons_self vid hvid)
        · exact ((List.pairwise_cons.mp h.order).1 v hv vid heq).1 hvid
      · exact ih h.tail hin

/-- A comment has the root of the message that it replies to. -/
theorem rootOf_eq_of_reply {parent : VertexId} (hpost : g.toOpen.post vid = none)
    (hstep : g.toOpen.replyStep vid = .inr (some parent) ∧ g.toOpen.post parent ≠ none ∨
      g.toOpen.replyStep vid = .inl parent ∧ g.toOpen.post parent = none) :
    g.toOpen.rootOf vid = g.toOpen.rootOf parent := by
  refine Option.ext fun postVid => ?_
  rw [OpenGraph.rootOf_eq_some, OpenGraph.rootOf_eq_some, OpenGraph.rootPost_of_none hpost]
  rcases hstep with ⟨hend, hparent⟩ | ⟨hnext, hparent⟩
  · rw [OpenGraph.rootPost_of_post hparent]
    exact ⟨fun h => Option.some.inj (h.unique (endsWith_of_inr hend)),
      fun h => h ▸ endsWith_of_inr hend⟩
  · rw [OpenGraph.rootPost_of_none hparent, endsWith_of_inl hnext]

/-- The id is that of a comment, and of no post. -/
def NamesComment (g : StoredGraph) (id : Int64) : Prop :=
  g.toOpen.post (encodeVid .post id) = none ∧ g.toOpen.comment (encodeVid .comment id) ≠ none

theorem post_eq_none_of_comment (h : g.toOpen.comment vid ≠ none) : g.toOpen.post vid = none := by
  rw [OpenGraph.comment] at h
  rw [OpenGraph.post]
  split at h
  · rename_i heq
    rw [heq]
  · exact absurd rfl h

theorem messageVid_of_comment {id : Int64} (h : g.NamesComment id) :
    g.messageVid id = some (encodeVid .comment id) := by
  rw [messageVid, if_neg (not_not.mpr h.1)]
  exact if_pos h.2

theorem messageVid_of_post {id : Int64} (h : g.toOpen.post (encodeVid .post id) ≠ none) :
    g.messageVid id = some (encodeVid .post id) := if_pos h

end StoredGraph

end LsmGraph
