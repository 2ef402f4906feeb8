import LsmGraph.Snb.Mirror
import LsmGraph.Snb.RecentMessages
import Mathlib.Data.Set.Card

/-! # IC7: the latest like of every liker

`ic7` walks over the messages of a person and their likes and keeps the best like of each liker,
replacing it only by a strictly later one. The order of the walk is that of the adjacency lists, so
of several likes of one time the first one met is kept. `ic7_order_independent_iff` says when the
order of the lists has no influence on the answer. -/

namespace LsmGraph

open KeyedSort

/-- The value of `liker_best` for one liker. -/
structure BestLike where
  likeTime : Int64
  msgId : Int64
  msgCreationDate : Int64
  msgVid : VertexId
  deriving DecidableEq, Repr

/-- `liker_best`, with its keys in the order of insertion. -/
structure LikerBest where
  keys : List VertexId
  best : VertexId → Option BestLike

def LikerBest.empty : LikerBest where
  keys := []
  best _ := none

/-- A like is kept if it is the liker's first or later than the one kept so far. -/
def keepBestLike (b : LikerBest) (like : VertexId × BestLike) : LikerBest :=
  let keep : Bool :=
    match b.best like.1 with
    | some old => old.likeTime < like.2.likeTime
    | none => true
  if keep then
    { keys := if like.1 ∈ b.keys then b.keys else b.keys ++ [like.1]
      best := Function.update b.best like.1 (some like.2) }
  else b

structure Ic7Row where
  personId : Int64
  personFirstName : String
  personLastName : String
  likeCreationDate : Int64
  messageId : Int64
  messageContent : String
  minutesLatency : Int64
  isNew : Bool
  deriving DecidableEq, Repr

namespace OpenGraph

variable (g : OpenGraph)

/-- The likes of one message: first those of type `LikesPost`, then those of type `LikesComment`. -/
def likesOfMessage (msgVid : VertexId) : List (VertexId × BestLike) :=
  match g.messageSummary msgVid with
  | none => []
  | some (msgId, msgCreationDate, _) =>
      (g.inEdgesWithProp msgVid .likesPost ++ g.inEdgesWithProp msgVid .likesComment).map
        fun edge => (edge.1, ⟨edge.2.asI64, msgId, msgCreationDate, msgVid⟩)

/-- The likes of a person's messages in the order of the walk. -/
def likesOf (personVid : VertexId) : List (VertexId × BestLike) :=
  (g.inMessagesCreators personVid).flatMap g.likesOfMessage

/-- The row of a liker and a like. -/
def ic7Row (personVid : VertexId) (like : VertexId × BestLike) (p : PersonProps) : Ic7Row where
  personId := p.id
  personFirstName := p.firstName
  personLastName := p.lastName
  likeCreationDate := like.2.likeTime
  messageId := like.2.msgId
  messageContent := g.messageContent like.2.msgVid
  minutesLatency := (like.2.likeTime - like.2.msgCreationDate) / 60000
  isNew := like.1 ∉ g.knowsNeighbors personVid

/-- A liker who is a stored person, with the best like. -/
structure LikerEntry where
  like : VertexId × BestLike
  person : PersonProps
  deriving DecidableEq, Repr

/-- The order of the answer. -/
def LikerEntry.key (e : LikerEntry) : Int64ᵒᵈ ×ₗ Int64 := recencyKey e.like.2.likeTime e.person.id

/-- The likers that are stored persons, in the order in which the map is iterated over. -/
def likerEntries (o : IterationOrder) (b : LikerBest) : List LikerEntry :=
  (o.order b.keys).filterMap fun liker => do
    let like ← b.best liker
    let p ← g.person liker
    some ⟨(liker, like), p⟩

def ic7 (o : IterationOrder) (personId : Int64) (limit : Nat) : List Ic7Row :=
  let personVid := encodeVid .person personId
  if g.person personVid = none then []
  else
    let likerBest := (g.likesOf personVid).foldl keepBestLike .empty
    ((sortByKey LikerEntry.key (g.likerEntries o likerBest)).take limit).map fun e =>
      g.ic7Row personVid e.like e.person

end OpenGraph

/-! ## The best likes -/

/-- `b` is the first of the latest likes of `liker` in the list. -/
def FirstLatest (likes : List (VertexId × BestLike)) (liker : VertexId) (b : BestLike) : Prop :=
  ∃ before after, likes = before ++ (liker, b) :: after ∧
    (∀ x ∈ before, x.1 = liker → x.2.likeTime < b.likeTime) ∧
    ∀ x ∈ after, x.1 = liker → x.2.likeTime ≤ b.likeTime

/-- What the walk has collected after a list of likes. -/
structure Collected (likes : List (VertexId × BestLike)) (b : LikerBest) : Prop where
  nodup : b.keys.Nodup
  mem_keys : ∀ liker, liker ∈ b.keys ↔ ∃ like, (liker, like) ∈ likes
  isSome_best : ∀ liker, liker ∈ b.keys ↔ (b.best liker).isSome
  firstLatest : ∀ liker like, b.best liker = some like → FirstLatest likes liker like

theorem collected_empty : Collected [] .empty where
  nodup := List.nodup_nil
  mem_keys liker := iff_of_false List.not_mem_nil fun ⟨_, h⟩ => List.not_mem_nil h
  isSome_best liker := iff_of_false List.not_mem_nil Bool.false_ne_true
  firstLatest liker like h := by cases h

/-- A later like in the list does not take the place of the first latest one. -/
theorem FirstLatest.append {likes : List (VertexId × BestLike)} {liker : VertexId} {b : BestLike}
    (h : FirstLatest likes liker b) {like : VertexId × BestLike}
    (hlike : like.1 = liker → like.2.likeTime ≤ b.likeTime) :
    FirstLatest (likes ++ [like]) liker b := by
  obtain ⟨before, after, rfl, hbefore, hafter⟩ := h
  refine ⟨before, after ++ [like], by simp, hbefore, fun x hx => ?_⟩
  rcases List.mem_append.mp hx with hx | hx
  · exact hafter x hx
  · exact List.mem_singleton.mp hx ▸ hlike

/-- A like that is later than all others is the first latest one. -/
theorem firstLatest_append_singleton {likes : List (VertexId × BestLike)}
    {like : VertexId × BestLike}
    (hlater : ∀ x ∈ likes, x.1 = like.1 → x.2.likeTime < like.2.likeTime) :
    FirstLatest (likes ++ [like]) like.1 like.2 :=
  ⟨likes, [], rfl, hlater, fun _ hx => absurd hx List.not_mem_nil⟩

/-- No like of the liker is later. -/
theorem FirstLatest.le {likes : List (VertexId × BestLike)} {liker : VertexId} {b : BestLike}
    (h : FirstLatest likes liker b) :
    ∀ x ∈ likes, x.1 = liker → x.2.likeTime ≤ b.likeTime := by
  obtain ⟨before, after, rfl, hbefore, hafter⟩ := h
  intro x hx hliker
  rcases List.mem_append.mp hx with hx | hx
  · exact (hbefore x hx hliker).le
  · rcases List.mem_cons.mp hx with rfl | hx
    · exact le_refl _
    · exact hafter x hx hliker

theorem FirstLatest.mem {likes : List (VertexId × BestLike)} {liker : VertexId} {b : BestLike}
    (h : FirstLatest likes liker b) : (liker, b) ∈ likes := by
  obtain ⟨before, after, rfl, -⟩ := h
  simp

/-- The likers of one like more. -/
theorem exists_mem_append_singleton {likes : List (VertexId × BestLike)}
    {like : VertexId × BestLike} (liker : VertexId) :
    (∃ l, (liker, l) ∈ likes ++ [like]) ↔ (∃ l, (liker, l) ∈ likes) ∨ liker = like.1 := by
  simp only [List.mem_append, List.mem_singleton, exists_or]
  exact or_congr_right ⟨fun ⟨l, hl⟩ => congrArg Prod.fst hl, fun heq => ⟨like.2, by rw [heq]⟩⟩

/-- A like is kept that is later than all others of its liker. -/
theorem Collected.keep {likes : List (VertexId × BestLike)} {b : LikerBest}
    (h : Collected likes b) {like : VertexId × BestLike}
    (hlater : ∀ x ∈ likes, x.1 = like.1 → x.2.likeTime < like.2.likeTime) :
    Collected (likes ++ [like])
      { keys := if like.1 ∈ b.keys then b.keys else b.keys ++ [like.1]
        best := Function.update b.best like.1 (some like.2) } := by
  have hkeys : ∀ liker, liker ∈ (if like.1 ∈ b.keys then b.keys else b.keys ++ [like.1]) ↔
      liker ∈ b.keys ∨ liker = like.1 := by
    intro liker
    split
    · rename_i hin
      exact ⟨Or.inl, fun hor => hor.elim id fun heq => heq ▸ hin⟩
    · rw [List.mem_append, List.mem_singleton]
  refine
    { nodup := ?_
      mem_keys := fun liker => by rw [hkeys, h.mem_keys, exists_mem_append_singleton]
      isSome_best := fun liker => ?_
      firstLatest := fun liker l hl => ?_ }
  · dsimp only
    split
    · exact h.nodup
    · rename_i hnot
      exact List.nodup_append'.mpr ⟨h.nodup, List.nodup_singleton _, by simpa using hnot⟩
  · rw [hkeys]
    dsimp only
    by_cases hliker : liker = like.1
    · subst hliker
      simp
    · rw [Function.update_of_ne hliker, or_iff_left hliker, h.isSome_best]
  · by_cases hliker : liker = like.1
    · subst hliker
      have hl : (Function.update b.best like.1 (some like.2)) like.1 = some l := hl
      rw [Function.update_self, Option.some.injEq] at hl
      exact hl ▸ firstLatest_append_singleton hlater
    · have hl : (Function.update b.best like.1 (some like.2)) liker = some l := hl
      rw [Function.update_of_ne hliker] at hl
      exact (h.firstLatest liker l hl).append fun heq => absurd heq.symm hliker

/-- A like is passed over that is not later than the one kept. -/
theorem Collected.pass {likes : List (VertexId × BestLike)} {b : LikerBest}
    (h : Collected likes b) {like : VertexId × BestLike} {old : BestLike}
    (hold : b.best like.1 = some old) (hle : like.2.likeTime ≤ old.likeTime) :
    Collected (likes ++ [like]) b where
  nodup := h.nodup
  mem_keys liker := by
    rw [exists_mem_append_singleton, ← h.mem_keys]
    refine (or_iff_left_of_imp ?_).symm
    rintro rfl
    rw [h.isSome_best, hold]
    rfl
  isSome_best := h.isSome_best
  firstLatest liker l hl := by
    refine (h.firstLatest liker l hl).append fun heq => ?_
    subst heq
    rw [hold, Option.some.injEq] at hl
    exact hl ▸ hle

/-- **Step lemma.** One more like is walked over. -/
theorem Collected.keepBestLike {likes : List (VertexId × BestLike)} {b : LikerBest}
    (h : Collected likes b) (like : VertexId × BestLike) :
    Collected (likes ++ [like]) (keepBestLike b like) := by
  unfold LsmGraph.keepBestLike
  -- the first like of its liker, or one to compare with the like kept so far
  cases hold : b.best like.1 with
  | none =>
      refine h.keep fun x hx hliker => ?_
      have hkey := (h.mem_keys like.1).mpr ⟨x.2, hliker ▸ hx⟩
      rw [h.isSome_best, hold] at hkey
      cases hkey
  | some old =>
      have hfirst := h.firstLatest like.1 old hold
      by_cases htime : old.likeTime < like.2.likeTime
      · simp only [htime, decide_true, if_true]
        exact h.keep fun x hx hliker => (hfirst.le x hx hliker).trans_lt htime
      · simp only [htime, decide_false, Bool.false_eq_true, if_false]
        exact h.pass hold (not_lt.mp htime)

/-- **Run lemma.** The walk collects the first latest like of every liker. -/
theorem collected_foldl (likes : List (VertexId × BestLike)) :
    Collected likes (likes.foldl keepBestLike .empty) := by
  induction likes using List.reverseRecOn with
  | nil => exact collected_empty
  | append_singleton likes like ih =>
      rw [List.foldl_append]
      exact ih.keepBestLike like

/-! ## Graphs that differ in the order of their lists -/

namespace OpenGraph

/-- The same vertices and properties, and every adjacency list a permutation of the other's. -/
structure SameUpToOrder (g g' : OpenGraph) : Prop where
  vertices_eq : g'.vertices = g.vertices
  edgeProps_eq : g'.edgeProps = g.edgeProps
  adjacency_perm : ∀ key, ((g'.adjacency key).getD []).Perm ((g.adjacency key).getD [])

variable {g g' : OpenGraph} {personVid : VertexId}

theorem SameUpToOrder.refl (g : OpenGraph) : g.SameUpToOrder g :=
  ⟨rfl, rfl, fun _ => .refl _⟩

theorem SameUpToOrder.person_eq (h : g.SameUpToOrder g') (vid : VertexId) :
    g'.person vid = g.person vid := by
  rw [person, person, h.vertices_eq]

theorem SameUpToOrder.messageSummary_eq (h : g.SameUpToOrder g') (vid : VertexId) :
    g'.messageSummary vid = g.messageSummary vid := by
  rw [messageSummary, messageSummary, comment, comment, post, post, h.vertices_eq]

/-- The likes of a message are the same, in some order. -/
theorem SameUpToOrder.likesOfMessage_perm (h : g.SameUpToOrder g') (msgVid : VertexId) :
    (g'.likesOfMessage msgVid).Perm (g.likesOfMessage msgVid) := by
  have hedges : ∀ label, (g'.inEdgesWithProp msgVid label).Perm (g.inEdgesWithProp msgVid label) := by
    intro label
    rw [inEdgesWithProp, inEdgesWithProp]
    simp only [SnbGraph.edgePropByType, h.edgeProps_eq]
    exact (h.adjacency_perm (msgVid, -label.asI32)).map _
  unfold likesOfMessage
  rw [h.messageSummary_eq]
  split
  · exact .refl _
  · exact ((hedges _).append (hedges _)).map _

/-- The likes of a person's messages are the same, in some order. -/
theorem SameUpToOrder.likesOf_perm (h : g.SameUpToOrder g') (personVid : VertexId) :
    (g'.likesOf personVid).Perm (g.likesOf personVid) := by
  have hmessages : (g'.inMessagesCreators personVid).Perm (g.inMessagesCreators personVid) := by
    rw [inMessagesCreators, inMessagesCreators]
    simp only [vertexLabel, h.vertices_eq]
    exact (h.adjacency_perm (personVid, -EdgeLabel.hasCreator.asI32)).filter _
  exact hmessages.flatMap fun msgVid _ => h.likesOfMessage_perm msgVid

/-- The rows are made alike. -/
theorem SameUpToOrder.ic7Row_eq (h : g.SameUpToOrder g') (personVid : VertexId)
    (like : VertexId × BestLike) (p : PersonProps) :
    g'.ic7Row personVid like p = g.ic7Row personVid like p := by
  have hknows : like.1 ∈ g'.knowsNeighbors personVid ↔ like.1 ∈ g.knowsNeighbors personVid :=
    (h.adjacency_perm (personVid, EdgeLabel.knows.asI32)).mem_iff
  unfold ic7Row
  simp only [messageContent, h.messageSummary_eq, hknows]

/-! ## What does not depend on the order -/

variable (g) in
/-- One of the latest likes of a liker who is a stored person. -/
def IsEntry (personVid : VertexId) (e : LikerEntry) : Prop :=
  e.like ∈ g.likesOf personVid ∧ g.person e.like.1 = some e.person ∧
    ∀ x ∈ g.likesOf personVid, x.1 = e.like.1 → x.2.likeTime ≤ e.like.2.likeTime

variable (g) in
/-- The likers that stand before a key in the order of the answer. -/
def likersAhead (personVid : VertexId) (key : Int64ᵒᵈ ×ₗ Int64) : Set VertexId :=
  {liker | ∃ e, g.IsEntry personVid e ∧ e.like.1 = liker ∧ e.key < key}

variable (g) in
/-- Wherever two latest likes compete for a place of the answer, their rows are the same. -/
def TiesAgree (personVid : VertexId) (limit : Nat) : Prop :=
  ∀ e e', g.IsEntry personVid e → g.IsEntry personVid e' → e.key = e'.key →
    (g.likersAhead personVid e.key).ncard < limit →
      g.ic7Row personVid e.like e.person = g.ic7Row personVid e'.like e'.person

theorem SameUpToOrder.isEntry_iff (h : g.SameUpToOrder g') {e : LikerEntry} :
    g'.IsEntry personVid e ↔ g.IsEntry personVid e := by
  simp only [IsEntry, (h.likesOf_perm personVid).mem_iff, h.person_eq]

/-- The entries of a walk: one for every liker who is a stored person. -/
structure ListsEntries (g : OpenGraph) (personVid : VertexId) (entries : List LikerEntry) :
    Prop where
  isEntry : ∀ e ∈ entries, g.IsEntry personVid e
  exists_mem : ∀ e, g.IsEntry personVid e → ∃ e' ∈ entries, e'.like.1 = e.like.1
  nodup : (entries.map fun e => e.like.1).Nodup

/-- Two entries of one liker have one key. -/
theorem key_eq_of_liker_eq {e e' : LikerEntry} (h : g.IsEntry personVid e)
    (h' : g.IsEntry personVid e') (hliker : e'.like.1 = e.like.1) : e'.key = e.key := by
  obtain ⟨hmem, hperson, hlatest⟩ := h
  obtain ⟨hmem', hperson', hlatest'⟩ := h'
  have htime := le_antisymm (hlatest _ hmem' hliker) (hlatest' _ hmem hliker.symm)
  rw [hliker, hperson, Option.some.injEq] at hperson'
  rw [LikerEntry.key, LikerEntry.key, htime, hperson']

variable (g) in
theorem listsEntries_likerEntries (o : IterationOrder) (personVid : VertexId) :
    g.ListsEntries personVid
      (g.likerEntries o ((g.likesOf personVid).foldl keepBestLike .empty)) := by
  have hcollected := collected_foldl (g.likesOf personVid)
  generalize (g.likesOf personVid).foldl keepBestLike .empty = b at hcollected ⊢
  have hmem : ∀ e, e ∈ g.likerEntries o b ↔
      b.best e.like.1 = some e.like.2 ∧ g.person e.like.1 = some e.person := by
    intro e
    rw [likerEntries, List.mem_filterMap]
    constructor
    · rintro ⟨liker, -, he⟩
      obtain ⟨like, hlike, he⟩ := Option.bind_eq_some_iff.mp he
      obtain ⟨p, hp, he⟩ := Option.bind_eq_some_iff.mp he
      cases he
      exact ⟨hlike, hp⟩
    · rintro ⟨hbest, hperson⟩
      refine ⟨e.like.1, (o.perm _).mem_iff.mpr ?_, ?_⟩
      · rw [hcollected.isSome_best, hbest]
        rfl
      · rw [hbest, hperson]
        rfl
  refine
    { isEntry := fun e he => ?_
      exists_mem := fun e he => ?_
      nodup := ?_ }
  · obtain ⟨hbest, hperson⟩ := (hmem e).mp he
    have hfirst := hcollected.firstLatest _ _ hbest
    exact ⟨hfirst.mem, hperson, hfirst.le⟩
  · have hkey := (hcollected.mem_keys e.like.1).mpr ⟨e.like.2, he.1⟩
    rw [hcollected.isSome_best] at hkey
    obtain ⟨like, hlike⟩ := Option.isSome_iff_exists.mp hkey
    exact ⟨⟨(e.like.1, like), e.person⟩, (hmem _).mpr ⟨hlike, he.2.1⟩, rfl⟩
  · rw [likerEntries, List.map_filterMap]
    refine ((o.perm b.keys).nodup_iff.mpr hcollected.nodup).filterMap ?_
    -- an entry is filed under its liker
    have hliker : ∀ {liker vid : VertexId},
        vid ∈ ((do
          let like ← b.best liker
          let p ← g.person liker
          some (LikerEntry.mk (liker, like) p)).map fun e : LikerEntry => e.like.1) → liker = vid := by
      intro liker vid hvid
      obtain ⟨e, he, rfl⟩ := Option.map_eq_some_iff.mp hvid
      obtain ⟨like, -, he⟩ := Option.bind_eq_some_iff.mp he
      obtain ⟨p, -, he⟩ := Option.bind_eq_some_iff.mp he
      cases he
      rfl
    exact fun liker liker' vid h h' => (hliker h).trans (hliker h').symm

/-- The entries of one graph are entries of every graph that differs in the order of its lists. -/
theorem ListsEntries.of_sameUpToOrder {entries : List LikerEntry} (h : g.SameUpToOrder g')
    (hentries : g'.ListsEntries personVid entries) : g.ListsEntries personVid entries where
  isEntry e he := h.isEntry_iff.mp (hentries.isEntry e he)
  exists_mem e he := hentries.exists_mem e (h.isEntry_iff.mpr he)
  nodup := hentries.nodup

/-- The likers ahead of a key are counted by the entries. -/
theorem ListsEntries.ncard_likersAhead {entries : List LikerEntry}
    (h : g.ListsEntries personVid entries) (key : Int64ᵒᵈ ×ₗ Int64) :
    (g.likersAhead personVid key).ncard = entries.countP fun e => e.key < key := by
  have hset : g.likersAhead personVid key =
      ↑((entries.filter fun e => e.key < key).map fun e => e.like.1).toFinset := by
    ext liker
    simp only [likersAhead, Set.mem_ofPred_eq, List.coe_toFinset, List.mem_map, List.mem_filter,
      decide_eq_true_eq]
    constructor
    · rintro ⟨e, he, rfl, hlt⟩
      obtain ⟨e', he', hliker⟩ := h.exists_mem e he
      exact ⟨e', ⟨he', key_eq_of_liker_eq he (h.isEntry e' he') hliker ▸ hlt⟩, hliker⟩
    · rintro ⟨e, ⟨he, hlt⟩, rfl⟩
      exact ⟨e, h.isEntry e he, rfl, hlt⟩
  have hnodup : ((entries.filter fun e => e.key < key).map fun e => e.like.1).Nodup :=
    h.nodup.sublist (List.filter_sublist.map _)
  rw [hset, Set.ncard_coe_finset, List.toFinset_card_of_nodup hnodup, List.length_map,
    List.countP_eq_length_filter]

/-- Two lists of entries have the same keys. -/
theorem ListsEntries.perm_map_key {entries entries' : List LikerEntry}
    (h : g.ListsEntries personVid entries) (h' : g.ListsEntries personVid entries') :
    (entries.map LikerEntry.key).Perm (entries'.map LikerEntry.key) := by
  have hlikers : (entries.map fun e => e.like.1).Perm (entries'.map fun e => e.like.1) := by
    refine (List.perm_ext_iff_of_nodup h.nodup h'.nodup).mpr fun liker => ?_
    simp only [List.mem_map]
    constructor
    · rintro ⟨e, he, rfl⟩
      exact h'.exists_mem e (h.isEntry e he)
    · rintro ⟨e, he, rfl⟩
      exact h.exists_mem e (h'.isEntry e he)
  -- the key is a function of the liker
  classical
  let keyOf : VertexId → Option (Int64ᵒᵈ ×ₗ Int64) := fun liker =>
    (entries.find? fun e => e.like.1 = liker).map LikerEntry.key
  have hkeyOf : ∀ e, g.IsEntry personVid e → keyOf e.like.1 = some e.key := by
    intro e he
    obtain ⟨e', he', hliker⟩ := h.exists_mem e he
    obtain ⟨e'', hfind⟩ := Option.isSome_iff_exists.mp
      (List.find?_isSome.mpr ⟨e', he', decide_eq_true hliker⟩ :
        (entries.find? fun x => x.like.1 = e.like.1).isSome)
    have hmem := List.mem_of_find?_eq_some hfind
    have hfound := List.find?_some hfind
    have hliker' : e''.like.1 = e.like.1 := of_decide_eq_true hfound
    change (entries.find? fun x => x.like.1 = e.like.1).map LikerEntry.key = _
    rw [hfind, Option.map_some, key_eq_of_liker_eq he (h.isEntry _ hmem) hliker']
  have hmap : ∀ l : List LikerEntry, (∀ e ∈ l, g.IsEntry personVid e) →
      (l.map LikerEntry.key).map some = (l.map fun e => e.like.1).map keyOf := by
    intro l hl
    rw [List.map_map, List.map_map]
    exact List.map_congr_left fun e he => (hkeyOf e (hl e he)).symm
  have hsome := hlikers.map keyOf
  rw [← hmap entries h.isEntry, ← hmap entries' h'.isEntry] at hsome
  exact (List.map_perm_map_iff (Option.some_injective _)).mp hsome

/-- **Where the ties agree, every walk gives the same rows.** -/
theorem TiesAgree.rows_eq {limit : Nat} (h : g.TiesAgree personVid limit)
    {entries entries' : List LikerEntry} (hentries : g.ListsEntries personVid entries)
    (hentries' : g.ListsEntries personVid entries') :
    ((sortByKey LikerEntry.key entries).take limit).map
        (fun e => g.ic7Row personVid e.like e.person) =
      ((sortByKey LikerEntry.key entries').take limit).map
        (fun e => g.ic7Row personVid e.like e.person) := by
  have hkeys := map_key_sortByKey_congr (hentries.perm_map_key hentries')
  have hlength : (sortByKey LikerEntry.key entries).length =
      (sortByKey LikerEntry.key entries').length := by
    simpa using congrArg List.length hkeys
  refine List.ext_getElem (by simp [hlength]) fun i hi hi' => ?_
  simp only [List.length_map, List.length_take, lt_min_iff] at hi hi'
  simp only [List.getElem_map, List.getElem_take]
  -- the likers ahead of the `i`-th entry are at most `i`
  have hahead : (g.likersAhead personVid (sortByKey LikerEntry.key entries)[i].key).ncard ≤ i := by
    rw [hentries.ncard_likersAhead, ← (perm_sortByKey LikerEntry.key entries).countP_eq]
    exact countP_lt_getElem_le (pairwise_sortByKey _ _) hi.2
  have hkey : (sortByKey LikerEntry.key entries)[i].key =
      (sortByKey LikerEntry.key entries')[i].key := by
    have hget := congrArg (fun keys => keys[i]?) hkeys
    simpa [List.getElem?_map, List.getElem?_eq_getElem hi.2, List.getElem?_eq_getElem hi'.2]
      using hget
  exact h _ _ (hentries.isEntry _ (mem_sortByKey.mp (List.getElem_mem hi.2)))
    (hentries'.isEntry _ (mem_sortByKey.mp (List.getElem_mem hi'.2))) hkey
    (hahead.trans_lt hi.1)

/-! ## Any latest like can come first -/

/-- The map is iterated over from one liker on. -/
def likerFirst (liker : VertexId) : IterationOrder where
  order keys := if liker ∈ keys then liker :: keys.erase liker else keys
  perm keys := by
    split
    · rename_i hmem
      exact (List.perm_cons_erase hmem).symm
    · exact .refl _

variable (g) in
/-- A message stands first among those of its creator. -/
def messageFirst (personVid msgVid : VertexId) : OpenGraph :=
  { g with
    adjacency := Function.update g.adjacency (personVid, -EdgeLabel.hasCreator.asI32)
      (some (msgVid :: (g.inNeighborsCached personVid .hasCreator).erase msgVid)) }

theorem adjacency_messageFirst (personVid msgVid : VertexId) :
    (g.messageFirst personVid msgVid).adjacency (personVid, -EdgeLabel.hasCreator.asI32) =
      some (msgVid :: (g.inNeighborsCached personVid .hasCreator).erase msgVid) :=
  Function.update_self _ _ _

theorem adjacency_messageFirst_of_ne {msgVid : VertexId} {key : AdjacencyKey}
    (h : key ≠ (personVid, -EdgeLabel.hasCreator.asI32)) :
    (g.messageFirst personVid msgVid).adjacency key = g.adjacency key :=
  Function.update_of_ne h _ _

theorem sameUpToOrder_messageFirst {msgVid : VertexId}
    (h : msgVid ∈ g.inNeighborsCached personVid .hasCreator) :
    g.SameUpToOrder (g.messageFirst personVid msgVid) where
  vertices_eq := rfl
  edgeProps_eq := rfl
  adjacency_perm key := by
    by_cases hkey : key = (personVid, -EdgeLabel.hasCreator.asI32)
    · subst hkey
      rw [adjacency_messageFirst]
      exact (List.perm_cons_erase h).symm
    · rw [adjacency_messageFirst_of_ne hkey]

theorem likesOfMessage_messageFirst (msgVid other : VertexId) :
    (g.messageFirst personVid msgVid).likesOfMessage other = g.likesOfMessage other := by
  have hadjacency : ∀ label : EdgeLabel, label ≠ .hasCreator →
      (g.messageFirst personVid msgVid).adjacency (other, -label.asI32) =
        g.adjacency (other, -label.asI32) := by
    intro label hne
    exact adjacency_messageFirst_of_ne fun heq => hne (neg_asI32_inj.mp (congrArg Prod.snd heq))
  unfold likesOfMessage inEdgesWithProp SnbGraph.inNeighborsCached
  rw [hadjacency _ (by decide), hadjacency _ (by decide)]
  rfl

/-- The likes of that message are met first. -/
theorem likesOf_messageFirst {msgVid : VertexId} (h : msgVid ∈ g.inMessagesCreators personVid) :
    ∃ rest, (g.messageFirst personVid msgVid).likesOf personVid =
      g.likesOfMessage msgVid ++ rest := by
  have hlabel := (List.mem_filter.mp h).2
  have hmessages : ∃ rest, (g.messageFirst personVid msgVid).inMessagesCreators personVid =
      msgVid :: rest := by
    rw [inMessagesCreators, SnbGraph.inNeighborsCached, adjacency_messageFirst, Option.getD_some]
    exact ⟨_, List.filter_cons_of_pos hlabel⟩
  obtain ⟨rest, hrest⟩ := hmessages
  rw [likesOf, hrest, List.flatMap_cons, likesOfMessage_messageFirst]
  exact ⟨_, rfl⟩

/-- The likes of one message by one liker at one time are one. -/
theorem eq_of_mem_likesOfMessage {msgVid liker : VertexId} {b b' : BestLike}
    (h : (liker, b) ∈ g.likesOfMessage msgVid) (h' : (liker, b') ∈ g.likesOfMessage msgVid)
    (htime : b.likeTime = b'.likeTime) : b = b' := by
  unfold likesOfMessage at h h'
  split at h
  · exact absurd h List.not_mem_nil
  · rename_i hsummary
    rw [hsummary] at h'
    obtain ⟨edge, -, heq⟩ := List.mem_map.mp h
    obtain ⟨edge', -, heq'⟩ := List.mem_map.mp h'
    obtain ⟨-, rfl⟩ := Prod.mk.inj heq
    obtain ⟨-, rfl⟩ := Prod.mk.inj heq'
    rw [show edge.2.asI64 = edge'.2.asI64 from htime]

end OpenGraph

/-- A latest like among the first likes is only preceded by one of them. -/
theorem FirstLatest.mem_of_mem_left {likes rest : List (VertexId × BestLike)} {liker : VertexId}
    {b c : BestLike} (h : FirstLatest (likes ++ rest) liker b) (hc : (liker, c) ∈ likes)
    (hlatest : b.likeTime ≤ c.likeTime) : (liker, b) ∈ likes := by
  obtain ⟨before, after, heq, hbefore, -⟩ := h
  -- where the first list ends: before the like, or behind it
  rcases List.append_eq_append_iff.mp heq with ⟨mid, rfl, -⟩ | ⟨mid, rfl, hmid⟩
  · exact absurd (hbefore _ (List.mem_append_left _ hc) rfl) hlatest.not_gt
  · cases mid with
    | nil =>
        rw [List.append_nil] at hc
        exact absurd (hbefore _ hc rfl) hlatest.not_gt
    | cons x mid =>
        cases hmid
        exact List.mem_append_right _ List.mem_cons_self

namespace OpenGraph

variable {g g' : OpenGraph} {personVid : VertexId}

/-- The entry of the liker from whom on the map is iterated over. -/
theorem likerEntries_likerFirst {b : LikerBest} {e : LikerEntry} (hmem : e.like.1 ∈ b.keys)
    (hbest : b.best e.like.1 = some e.like.2) (hperson : g.person e.like.1 = some e.person) :
    ∃ others, g.likerEntries (likerFirst e.like.1) b = e :: others := by
  rw [likerEntries, likerFirst]
  dsimp only
  rw [if_pos hmem]
  refine ⟨_, List.filterMap_cons_some ?_⟩
  rw [hbest, hperson]
  rfl

/-- **Every latest like is reported by some walk**, at the place that the likers ahead leave it. -/
theorem exists_row_of_isEntry {personId : Int64} {limit : Nat} {e : LikerEntry}
    (hperson : g.person (encodeVid .person personId) ≠ none)
    (he : g.IsEntry (encodeVid .person personId) e)
    (hahead : (g.likersAhead (encodeVid .person personId) e.key).ncard < limit) :
    ∃ g' o, g.SameUpToOrder g' ∧
      (g'.ic7 o personId limit)[(g.likersAhead (encodeVid .person personId) e.key).ncard]? =
        some (g.ic7Row (encodeVid .person personId) e.like e.person) := by
  generalize hpv : encodeVid .person personId = personVid at hperson he hahead ⊢
  obtain ⟨msgVid, hmsg, hlike⟩ := List.mem_flatMap.mp he.1
  have hsame := sameUpToOrder_messageFirst (List.mem_of_mem_filter hmsg)
  obtain ⟨rest, hrest⟩ := likesOf_messageFirst hmsg
  -- the walk keeps this like of the liker
  have hcollected := collected_foldl ((g.messageFirst personVid msgVid).likesOf personVid)
  have hentries := (listsEntries_likerEntries (g.messageFirst personVid msgVid)
    (likerFirst e.like.1) personVid).of_sameUpToOrder hsame
  refine ⟨g.messageFirst personVid msgVid, likerFirst e.like.1, hsame, ?_⟩
  unfold ic7
  rw [hpv]
  simp only [hsame.person_eq, if_neg hperson, hsame.ic7Row_eq]
  generalize ((g.messageFirst personVid msgVid).likesOf personVid).foldl keepBestLike .empty = b
    at hcollected hentries ⊢
  have hmem : e.like.1 ∈ b.keys :=
    (hcollected.mem_keys _).mpr ⟨e.like.2, (hsame.likesOf_perm personVid).mem_iff.mpr he.1⟩
  have hbest : b.best e.like.1 = some e.like.2 := by
    obtain ⟨best, hbest⟩ := Option.isSome_iff_exists.mp ((hcollected.isSome_best _).mp hmem)
    have hfirst := hcollected.firstLatest _ _ hbest
    have hle := he.2.2 _ ((hsame.likesOf_perm personVid).mem_iff.mp hfirst.mem) rfl
    have hge := hfirst.le _ ((hsame.likesOf_perm personVid).mem_iff.mpr he.1) rfl
    rw [hrest] at hfirst
    rw [hbest, eq_of_mem_likesOfMessage (hfirst.mem_of_mem_left hlike hle) hlike (le_antisymm hle hge)]
  -- and its entry stands first
  obtain ⟨others, hothers⟩ :=
    likerEntries_likerFirst hmem hbest ((hsame.person_eq e.like.1).trans he.2.1)
  rw [hothers] at hentries ⊢
  rw [hentries.ncard_likersAhead, List.countP_cons_of_neg (by simp)] at hahead ⊢
  rw [List.getElem?_map, List.getElem?_take_of_lt hahead, getElem?_sortByKey_cons]
  rfl

/-- **IC7 does not depend on the order of the adjacency lists** exactly when two likes that compete
for a place of the answer give the same row. -/
theorem ic7_order_independent_iff (g : OpenGraph) (personId : Int64) (limit : Nat) :
    (∀ g' o o', g.SameUpToOrder g' → g.ic7 o personId limit = g'.ic7 o' personId limit) ↔
      (g.person (encodeVid .person personId) ≠ none →
        g.TiesAgree (encodeVid .person personId) limit) := by
  constructor
  · intro h hperson e e' he he' hkey hahead
    obtain ⟨g₁, o₁, hsame₁, hrow⟩ := exists_row_of_isEntry hperson he hahead
    rw [hkey] at hrow hahead
    obtain ⟨g₂, o₂, hsame₂, hrow'⟩ := exists_row_of_isEntry hperson he' hahead
    rw [← h g₁ o₁ o₁ hsame₁] at hrow
    rw [← h g₂ o₁ o₂ hsame₂, hrow] at hrow'
    exact Option.some.inj hrow'
  · intro h g' o o' hsame
    by_cases hperson : g.person (encodeVid .person personId) = none
    · rw [ic7, ic7, hsame.person_eq, if_pos hperson, if_pos hperson]
    · rw [ic7, ic7, hsame.person_eq, if_neg hperson, if_neg hperson]
      simp only [hsame.ic7Row_eq]
      exact (h hperson).rows_eq (g.listsEntries_likerEntries o _)
        ((g'.listsEntries_likerEntries o' _).of_sameUpToOrder hsame)

end OpenGraph

/-- Person 1 liked the posts 10 and 11 of person 0 at one time. -/
def likedTogether (posts : List VertexId) : OpenGraph where
  edgeProps key := List.lookup key
    [ ((encodeVid .post 10, -EdgeLabel.likesPost.asI32, encodeVid .person 1), .i64 50),
      ((encodeVid .post 11, -EdgeLabel.likesPost.asI32, encodeVid .person 1), .i64 50) ]
  adjacency key := List.lookup key
    [ ((encodeVid .person 0, -EdgeLabel.hasCreator.asI32), posts),
      ((encodeVid .post 10, -EdgeLabel.likesPost.asI32), [encodeVid .person 1]),
      ((encodeVid .post 11, -EdgeLabel.likesPost.asI32), [encodeVid .person 1]) ]
  vertices vid := List.lookup vid
    [ (encodeVid .person 0, .person ⟨0, "", "", "", 0, 0, "", "", "", ""⟩),
      (encodeVid .person 1, .person ⟨1, "", "", "", 0, 0, "", "", "", ""⟩),
      (encodeVid .post 10, .post ⟨10, "", 20, "ten"⟩),
      (encodeVid .post 11, .post ⟨11, "", 30, "eleven"⟩) ]

namespace OpenGraph

/-- **The order of the posts decides which of two likes of one time is reported.** -/
theorem ic7_order_matters :
    ¬ ∀ g g' : OpenGraph, ∀ o o' personId limit, g.SameUpToOrder g' →
      g.ic7 o personId limit = g'.ic7 o' personId limit := by
  intro h
  have hsame : (likedTogether [encodeVid .post 10, encodeVid .post 11]).SameUpToOrder
      (likedTogether [encodeVid .post 11, encodeVid .post 10]) := by
    refine ⟨rfl, rfl, fun key => ?_⟩
    simp only [likedTogether, List.lookup_cons]
    split
    · exact List.Perm.swap _ _ _
    · exact .refl _
  exact absurd (h _ _ inInsertionOrder inInsertionOrder 0 20 hsame) (by decide +kernel)

end OpenGraph

end LsmGraph
