import LsmGraph.Library.Memo
import LsmGraph.Snb.ParentDag
import Mathlib.Algebra.Order.Field.Rat
import Mathlib.Data.Set.Card
import Mathlib.Tactic.Ring

/-! # The weight of a friendship in IC14

`Ic14Cache` keeps two tables: the creators of messages, and the weights of pairs of persons. What
`knowsWeight` returns is the number of replies between two persons, those to comments counted by
halves, whatever right entries the tables hold (`knowsWeight_computes`). Weights are rationals: the
sums of ones and halves that the code adds as `f64`. -/

namespace LsmGraph

open Memo

structure Ic14Cache where
  commentCreator : VertexId → Option VertexId
  knowsWeight : VertexId × VertexId → Option ℚ

def Ic14Cache.new : Ic14Cache where
  commentCreator _ := none
  knowsWeight _ := none

namespace OpenGraph

variable (g : OpenGraph)

def commentCreator (msg : VertexId) : StateM Ic14Cache (Option VertexId) := do
  match (← get).commentCreator msg with
  | some creator => pure (some creator)
  | none =>
      match g.messageCreatorVid msg with
      | none => pure none
      | some creator =>
          modify fun cache =>
            { cache with
              commentCreator := Function.update cache.commentCreator msg (some creator) }
          pure (some creator)

/-- One of the inner loops of `reply_weight`: the messages that a reply answers. -/
def addReplies (target : VertexId) (points : ℚ) (answered : List VertexId) (weight : ℚ) :
    StateM Ic14Cache ℚ :=
  answered.foldlM (fun weight msg => do
    if (← g.commentCreator msg) = some target then pure (weight + points) else pure weight) weight

def replyWeight (author target : VertexId) : StateM Ic14Cache ℚ :=
  (g.inNeighborsCached author .hasCreator).foldlM (fun weight msg => do
    if (← g.commentCreator msg) ≠ some author then pure weight
    else
      let weight ← g.addReplies target 1 (g.outNeighborsCached msg .replyOfPost) weight
      g.addReplies target (1 / 2) (g.outNeighborsCached msg .replyOfComment) weight) 0

def knowsWeight (a b : VertexId) : StateM Ic14Cache ℚ := do
  let key := if a ≤ b then (a, b) else (b, a)
  match (← get).knowsWeight key with
  | some weight => pure weight
  | none =>
      let weight := (← g.replyWeight a b) + (← g.replyWeight b a)
      modify fun cache =>
        { cache with knowsWeight := Function.update cache.knowsWeight key (some weight) }
      pure weight

/-! ## What the weight counts -/

/-- The replies of one person to posts or comments of another: the reply and what it answers. -/
def RepliesTo (label : EdgeLabel) (author target : VertexId) : Set (VertexId × VertexId) :=
  {reply | reply.1 ∈ g.inNeighborsCached author .hasCreator ∧
    g.messageCreatorVid reply.1 = some author ∧ reply.2 ∈ g.outNeighborsCached reply.1 label ∧
    g.messageCreatorVid reply.2 = some target}

/-- One for each reply to a post, one half for each reply to a comment. -/
noncomputable def replyPoints (author target : VertexId) : ℚ :=
  (g.RepliesTo .replyOfPost author target).ncard +
    (g.RepliesTo .replyOfComment author target).ncard / 2

/-- The weight of two persons who know each other. -/
noncomputable def friendWeight (a b : VertexId) : ℚ := g.replyPoints a b + g.replyPoints b a

theorem friendWeight_comm (a b : VertexId) : g.friendWeight a b = g.friendWeight b a :=
  Rat.add_comm _ _

/-- The tables hold right values only. -/
structure CacheCorrect (cache : Ic14Cache) : Prop where
  commentCreator : TableOf g.messageCreatorVid cache.commentCreator
  knowsWeight : TableOf (fun pair => some (g.friendWeight pair.1 pair.2)) cache.knowsWeight

theorem cacheCorrect_new : g.CacheCorrect .new := ⟨tableOf_empty _, tableOf_empty _⟩

variable {g}

/-- The messages of one person among those that a reply answers. -/
def answeredOf (g : OpenGraph) (target : VertexId) (answered : List VertexId) : List VertexId :=
  answered.filter fun msg => g.messageCreatorVid msg = some target

/-- The replies as the loops meet them. -/
def replyList (g : OpenGraph) (label : EdgeLabel) (author target : VertexId) (msgs : List VertexId) :
    List (VertexId × VertexId) :=
  (msgs.filter fun msg => g.messageCreatorVid msg = some author).flatMap fun msg =>
    (g.answeredOf target (g.outNeighborsCached msg label)).map (Prod.mk msg)

theorem ncard_repliesTo (hnodup : g.NodupAdjacency) (label : EdgeLabel) (author target : VertexId) :
    (g.RepliesTo label author target).ncard =
      (g.replyList label author target (g.inNeighborsCached author .hasCreator)).length := by
  have hset : g.RepliesTo label author target =
      ↑(g.replyList label author target (g.inNeighborsCached author .hasCreator)).toFinset := by
    ext ⟨msg, answered⟩
    simp only [RepliesTo, replyList, answeredOf, Set.mem_ofPred_eq, List.coe_toFinset, List.mem_flatMap,
      List.mem_filter, List.mem_map, decide_eq_true_eq, Prod.mk.injEq]
    constructor
    · rintro ⟨hmsg, hauthor, hanswered, htarget⟩
      exact ⟨msg, ⟨hmsg, hauthor⟩, answered, ⟨hanswered, htarget⟩, rfl, rfl⟩
    · rintro ⟨msg, ⟨hmsg, hauthor⟩, answered, ⟨hanswered, htarget⟩, rfl, rfl⟩
      exact ⟨hmsg, hauthor, hanswered, htarget⟩
  -- no reply is met twice: the messages differ, and so do the answers of one message
  have hlist : (g.replyList label author target
      (g.inNeighborsCached author .hasCreator)).Nodup := by
    refine List.nodup_flatMap.mpr ⟨fun msg _ => ?_, ?_⟩
    · exact ((hnodup _).filter _).map (Prod.mk_right_injective msg)
    · refine ((hnodup (author, -EdgeLabel.hasCreator.asI32)).filter _).imp fun hne => ?_
      intro reply hreply hreply'
      obtain ⟨answered, -, rfl⟩ := List.mem_map.mp hreply
      obtain ⟨answered', -, heq⟩ := List.mem_map.mp hreply'
      exact hne (congrArg Prod.fst heq).symm
  rw [hset, Set.ncard_coe_finset, List.toFinset_card_of_nodup hlist]

/-! ## What the functions compute -/

theorem commentCreator_computes (msg : VertexId) :
    Computes g.CacheCorrect (g.commentCreator msg) (g.messageCreatorVid msg) := by
  refine Computes.get fun cache hcache => ?_
  cases hentry : cache.commentCreator msg with
  | some creator =>
      rw [hcache.commentCreator msg creator hentry]
      exact Computes.pure _
  | none =>
      cases hcreator : g.messageCreatorVid msg with
      | none => exact Computes.pure _
      | some creator =>
          refine Computes.bind (Computes.modify fun cache hcache => ?_) (Computes.pure _)
          exact ⟨hcache.commentCreator.update hcreator, hcache.knowsWeight⟩

/-- An inner loop adds the points of every message of the target. -/
theorem addReplies_computes (target : VertexId) (points : ℚ) (answered : List VertexId)
    (weight : ℚ) :
    Computes g.CacheCorrect (g.addReplies target points answered weight)
      (weight + (g.answeredOf target answered).length * points) := by
  have hloop : Computes g.CacheCorrect (g.addReplies target points answered weight)
      (answered.foldl (fun weight msg =>
        if g.messageCreatorVid msg = some target then weight + points else weight) weight) := by
    refine Computes.foldlM (fun weight msg _ => (commentCreator_computes msg).bind ?_) weight
    split
    · exact Computes.pure _
    · exact Computes.pure _
  have hsum : ∀ (answered : List VertexId) (weight : ℚ), answered.foldl (fun weight msg =>
      if g.messageCreatorVid msg = some target then weight + points else weight) weight =
        weight + (g.answeredOf target answered).length * points := by
    intro answered
    induction answered with
    | nil => intro weight; simp [answeredOf]
    | cons msg answered ih =>
        intro weight
        rw [List.foldl_cons, ih, answeredOf, answeredOf, List.filter_cons]
        by_cases htarget : g.messageCreatorVid msg = some target
        · simp only [htarget, decide_true, if_true, List.length_cons]
          push_cast
          ring
        · simp only [htarget, decide_false, if_false, Bool.false_eq_true]
  exact hsum answered weight ▸ hloop

/-- One more message, by the author or by someone else. -/
theorem length_replyList_cons (label : EdgeLabel) (author target msg : VertexId)
    (msgs : List VertexId) :
    (g.replyList label author target (msg :: msgs)).length =
      (if g.messageCreatorVid msg = some author then
        (g.answeredOf target (g.outNeighborsCached msg label)).length
      else 0) + (g.replyList label author target msgs).length := by
  unfold replyList
  rw [List.filter_cons]
  by_cases hauthor : g.messageCreatorVid msg = some author
  · rw [if_pos (decide_eq_true hauthor), if_pos hauthor, List.flatMap_cons, List.length_append,
      List.length_map]
  · rw [if_neg (by simpa using hauthor), if_neg hauthor, Nat.zero_add]

/-- What one message adds to the weight. -/
def addMessage (g : OpenGraph) (author target : VertexId) (weight : ℚ) (msg : VertexId) : ℚ :=
  if g.messageCreatorVid msg ≠ some author then weight
  else
    weight + (g.answeredOf target (g.outNeighborsCached msg .replyOfPost)).length * 1 +
      (g.answeredOf target (g.outNeighborsCached msg .replyOfComment)).length * (1 / 2)

/-- The messages together add the replies among them. -/
theorem foldl_addMessage (author target : VertexId) (msgs : List VertexId) (weight : ℚ) :
    msgs.foldl (g.addMessage author target) weight =
      weight + (g.replyList .replyOfPost author target msgs).length +
        (g.replyList .replyOfComment author target msgs).length / 2 := by
  induction msgs generalizing weight with
  | nil => simp [replyList]
  | cons msg msgs ih =>
      rw [List.foldl_cons, ih, length_replyList_cons, length_replyList_cons]
      by_cases hauthor : g.messageCreatorVid msg = some author
      · simp only [addMessage, hauthor, ne_eq, not_true_eq_false, if_false, if_true]
        push_cast
        ring
      · simp only [addMessage, hauthor, ne_eq, not_false_eq_true, if_true, if_false, Nat.zero_add]

theorem replyWeight_computes (hnodup : g.NodupAdjacency) (author target : VertexId) :
    Computes g.CacheCorrect (g.replyWeight author target) (g.replyPoints author target) := by
  have hloop : Computes g.CacheCorrect (g.replyWeight author target)
      ((g.inNeighborsCached author .hasCreator).foldl (g.addMessage author target) 0) := by
    refine Computes.foldlM (fun weight msg _ => (commentCreator_computes msg).bind ?_) 0
    unfold addMessage
    by_cases hauthor : g.messageCreatorVid msg ≠ some author
    · rw [if_pos hauthor, if_pos hauthor]
      exact Computes.pure _
    · rw [if_neg hauthor, if_neg hauthor]
      exact (addReplies_computes target 1 _ weight).bind (addReplies_computes target (1 / 2) _ _)
  have hpoints : (g.inNeighborsCached author .hasCreator).foldl (g.addMessage author target) 0 =
      g.replyPoints author target := by
    rw [foldl_addMessage, replyPoints, ncard_repliesTo hnodup, ncard_repliesTo hnodup]
    ring
  exact hpoints ▸ hloop

/-- **The weight of a pair**, whatever the tables hold already. -/
theorem knowsWeight_computes (hnodup : g.NodupAdjacency) (a b : VertexId) :
    Computes g.CacheCorrect (g.knowsWeight a b) (g.friendWeight a b) := by
  -- the pair is stored in ascending order
  have hkey : ∀ key : VertexId × VertexId, (key = if a ≤ b then (a, b) else (b, a)) →
      g.friendWeight key.1 key.2 = g.friendWeight a b := by
    rintro key rfl
    split
    · rfl
    · exact g.friendWeight_comm b a
  unfold knowsWeight
  -- a stored weight is right, and one that is computed is stored as a right one
  generalize hpair : (if a ≤ b then (a, b) else (b, a)) = key
  have hweight := hkey key hpair.symm
  refine Computes.get fun cache hcache => ?_
  cases hentry : cache.knowsWeight key with
  | some weight =>
      have hstored := Option.some.inj (hcache.knowsWeight key weight hentry)
      have heq : weight = g.friendWeight a b := hstored.symm.trans hweight
      rw [heq]
      exact Computes.pure _
  | none =>
      refine (replyWeight_computes hnodup a b).bind ((replyWeight_computes hnodup b a).bind ?_)
      refine Computes.bind (Computes.modify fun cache hcache => ?_) (Computes.pure _)
      exact ⟨hcache.commentCreator, hcache.knowsWeight.update (congrArg some hweight)⟩

end OpenGraph

end LsmGraph
