import LsmGraph.Snb.Calendar
import LsmGraph.Snb.FriendSets
import LsmGraph.Snb.Stored
import Mathlib.Algebra.BigOperators.Group.Finset.Basic
import Mathlib.Data.String.Basic

/-! # IC4 and IC6: counting tags

`ic4` counts the tags of the posts that the friends of a person wrote in a span of time, without those
tags that a friend had used before. `ic6` counts the tags that occur beside a given one in the posts of
the friends and their friends. Both fill a `HashMap` in a loop over a `HashSet` or an adjacency list,
and read it out. `ic4_spec` and `ic6_spec` say what the answers are, without maps: in whatever order
sets and maps are iterated over, they are the first rows of a set of tags. -/

namespace LsmGraph

open KeyedSort Tally

/-! ## Dates -/

/-- The nearest number in the range of `i64`. -/
def saturate (v : Int) : Int64 := Int64.ofInt (max (-2 ^ 63) (min (2 ^ 63 - 1) v))

/-- `start_date.saturating_add(duration_days.saturating_mul(DAY_MS))`. -/
def endDate (startDate durationDays : Int64) : Int64 :=
  saturate (startDate.toInt + (saturate (durationDays.toInt * dayMs)).toInt)

/-- The largest count first, and equal counts by name. -/
def countNameKey (count : Nat) (name : String) : ℕᵒᵈ ×ₗ String := toLex (OrderDual.toDual count, name)

theorem countNameKey_inj {count count' : Nat} {name name' : String}
    (h : countNameKey count name = countNameKey count' name') : count = count' ∧ name = name' := by
  have hpair := Prod.ext_iff.mp (toLex.injective h)
  exact ⟨OrderDual.toDual.injective hpair.1, hpair.2⟩

namespace OpenGraph

variable (g : OpenGraph)

def hasTagNeighbors (vid : VertexId) : List VertexId := g.outNeighborsCached vid .hasTag

/-- The posts of a person. -/
def inPostsCreators (personVid : VertexId) : List VertexId :=
  (g.inNeighborsCached personVid .hasCreator).filter fun vid => g.vertexLabel vid = some .post

end OpenGraph

/-- The members of a `HashSet`, as it is iterated over. -/
theorem mem_hashSet {o : IterationOrder} {l : List VertexId} {v : VertexId} :
    v ∈ o.hashSet l ↔ v ∈ l := by
  rw [IterationOrder.hashSet, (o.perm _).mem_iff, mem_firstByKey_id]
  exact and_iff_left List.not_mem_nil

theorem nodup_hashSet (o : IterationOrder) (l : List VertexId) : (o.hashSet l).Nodup :=
  (o.perm _).nodup_iff.mpr (nodup_firstByKey_id [] l)

/-- A sum over a `HashSet` does not depend on the order. -/
theorem sum_map_hashSet (o : IterationOrder) (l : List VertexId) (f : VertexId → Nat) :
    ((o.hashSet l).map f).sum = ∑ v ∈ l.toFinset, f v := by
  have hset : (o.hashSet l).toFinset = l.toFinset :=
    Finset.ext fun v => by rw [List.mem_toFinset, List.mem_toFinset, mem_hashSet]
  rw [← hset, List.sum_toFinset f (nodup_hashSet o l)]

namespace StoredGraph

/-- A row of `ic4` or `ic6`: `Ic4Row` and `Ic6Row` have the same fields. -/
structure TagCountRow where
  tagName : String
  postCount : Nat
  deriving DecidableEq, Repr

/-- A row before it is cut to its columns. -/
structure TagCandidate where
  count : Nat
  name : String
  tagVid : VertexId

def TagCandidate.key (c : TagCandidate) : ℕᵒᵈ ×ₗ String := countNameKey c.count c.name

def TagCandidate.row (c : TagCandidate) : TagCountRow := ⟨c.name, c.count⟩

variable (g : StoredGraph)

def tagName (tagVid : VertexId) : String := ((g.tag tagVid).map Stored.TagProps.name).getD ""

/-- The candidate of a count, if its tag is stored. -/
def tagCandidate (tagVid : VertexId) (count : Nat) : Option TagCandidate :=
  (g.tag tagVid).map fun tag => ⟨count, tag.name, tagVid⟩

/-- The first rows of the tags that satisfy `P`, with these counts. -/
def TagRows (P : VertexId → Prop) (count : VertexId → Nat) : Nat → List TagCountRow → Prop :=
  TopRows (fun tagVid => g.tag tagVid ≠ none ∧ P tagVid)
    (fun tagVid => countNameKey (count tagVid) (g.tagName tagVid))
    (fun tagVid => ⟨g.tagName tagVid, count tagVid⟩)

/-! ## IC4 -/

structure TagAgg where
  inWindowCount : Nat
  existedBefore : Bool
  deriving DecidableEq, Repr

def TagAgg.default : TagAgg := ⟨0, false⟩

/-- A use of a tag, before the span or in it. -/
def TagAgg.use (before : Bool) (agg : TagAgg) : TagAgg :=
  if before then { agg with existedBefore := true }
  else { agg with inWindowCount := agg.inWindowCount + 1 }

/-- The uses of tags in one post, as far as they are looked at. -/
def tagUsesOfPost (startDate endDate : Int64) (postVid : VertexId) : List (VertexId × Bool) :=
  match g.toOpen.post postVid with
  | none => []
  | some post =>
      if post.creationDate < startDate ∨ post.creationDate < endDate then
        (g.toOpen.hasTagNeighbors postVid).map fun tagVid => (tagVid, post.creationDate < startDate)
      else []

def tagUses (startDate endDate : Int64) (friend : VertexId) : List (VertexId × Bool) :=
  (g.toOpen.inPostsCreators friend).flatMap (g.tagUsesOfPost startDate endDate)

def ic4Candidate (entry : VertexId × TagAgg) : Option TagCandidate :=
  if entry.2.existedBefore then none else g.tagCandidate entry.1 entry.2.inWindowCount

def ic4 (o p : IterationOrder) (personId startDate durationDays : Int64) (limit : Nat) :
    List TagCountRow :=
  let startVid := encodeVid .person personId
  if g.person startVid = none then []
  else
    let friends := o.hashSet (g.toOpen.knowsNeighbors startVid)
    let uses := friends.flatMap (g.tagUses startDate (endDate startDate durationDays))
    let byTag : Table VertexId TagAgg :=
      Table.empty.upsertAll .default (uses.map fun use => (use.1, TagAgg.use use.2))
    let rows := (byTag.entries p.order).filterMap g.ic4Candidate
    ((sortByKey TagCandidate.key rows).take limit).map TagCandidate.row

/-- How often a post has a tag, if it was written in the span. -/
def usesInPost (startDate endDate : Int64) (tagVid postVid : VertexId) : Nat :=
  match g.toOpen.post postVid with
  | none => 0
  | some post =>
      if startDate ≤ post.creationDate ∧ post.creationDate < endDate then
        (g.toOpen.hasTagNeighbors postVid).count tagVid
      else 0

/-- How often the friends of a person used a tag in the span, over their posts. -/
def windowUses (start : VertexId) (startDate endDate : Int64) (tagVid : VertexId) : Nat :=
  ∑ friend ∈ (g.toOpen.knowsNeighbors start).toFinset,
    ((g.toOpen.inPostsCreators friend).map (g.usesInPost startDate endDate tagVid)).sum

/-- A friend used the tag before the span. -/
def UsedBefore (start : VertexId) (startDate : Int64) (tagVid : VertexId) : Prop :=
  ∃ friend ∈ g.toOpen.knowsNeighbors start, ∃ postVid ∈ g.toOpen.inPostsCreators friend,
    ∃ post, g.toOpen.post postVid = some post ∧ post.creationDate < startDate ∧
      tagVid ∈ g.toOpen.hasTagNeighbors postVid

variable {g}

/-- There are no other rows: the order of the tags shows in the rows. -/
theorem TagRows.unique {P : VertexId → Prop} {count : VertexId → Nat} {limit : Nat}
    {rows rows' : List TagCountRow} (h : g.TagRows P count limit rows)
    (h' : g.TagRows P count limit rows') : rows = rows' := by
  refine TopRows.unique h h' fun a b _ _ hkey => ?_
  obtain ⟨hcount, hname⟩ := countNameKey_inj hkey
  rw [hcount, hname]

/-- The rows of a map from tags, of which the entries that are kept have these counts. -/
theorem tagRows_entries {V : Type} {t : Table VertexId V} {p : IterationOrder} (keep : V → Bool)
    (countOf : V → Nat) {P : VertexId → Prop} {count : VertexId → Nat}
    (hP : ∀ tagVid, P tagVid ↔ ∃ v, t.get tagVid = some v ∧ keep v = true)
    (hcount : ∀ tagVid v, t.get tagVid = some v → keep v = true → countOf v = count tagVid)
    (limit : Nat) :
    g.TagRows P count limit
      (((sortByKey TagCandidate.key ((t.entries p.order).filterMap fun e =>
        if keep e.2 then g.tagCandidate e.1 (countOf e.2) else none)).take limit).map
          TagCandidate.row) := by
  have hcand : ∀ k v c, (if keep v then g.tagCandidate k (countOf v) else none) = some c ↔
      keep v = true ∧ ∃ tag, g.tag k = some tag ∧ c = ⟨countOf v, tag.name, k⟩ := by
    intro k v c
    split
    · rename_i hkeep
      rw [tagCandidate, Option.map_eq_some_iff, and_iff_right hkeep]
      simp only [eq_comm]
    · rename_i hkeep
      exact iff_of_false nofun fun h => hkeep h.1
  refine topRows_entries p.perm TagCandidate.tagVid (fun k v c hc => ?_) (fun k => ?_)
    (fun k v c hget hc => ?_) limit
  · obtain ⟨-, tag, -, rfl⟩ := (hcand k v c).mp hc
    rfl
  · rw [hP, Option.ne_none_iff_exists']
    constructor
    · rintro ⟨⟨tag, htag⟩, v, hget, hkeep⟩
      exact ⟨v, _, hget, (hcand k v _).mpr ⟨hkeep, tag, htag, rfl⟩⟩
    · rintro ⟨v, c, hget, hc⟩
      obtain ⟨hkeep, tag, htag, -⟩ := (hcand k v c).mp hc
      exact ⟨⟨tag, htag⟩, v, hget, hkeep⟩
  · obtain ⟨hkeep, tag, htag, rfl⟩ := (hcand k v c).mp hc
    have hname : g.tagName k = tag.name := by
      rw [tagName, htag]
      rfl
    rw [hname, ← hcount k v hget hkeep]
    exact ⟨rfl, rfl⟩

/-! ### The loop of IC4 -/

theorem changed_uses (tagVid : VertexId) (uses : List (VertexId × Bool)) (agg : TagAgg) :
    Table.changed tagVid (uses.map fun use => (use.1, TagAgg.use use.2)) agg =
      ⟨agg.inWindowCount + uses.count (tagVid, false),
        agg.existedBefore || decide ((tagVid, true) ∈ uses)⟩ := by
  induction uses generalizing agg with
  | nil => simp [Table.changed]
  | cons use uses ih =>
      obtain ⟨t, before⟩ := use
      rw [List.map_cons]
      by_cases ht : t = tagVid
      · subst ht
        rw [Table.changed_cons_self (t, TagAgg.use before), ih]
        cases before with
        | true => simp [TagAgg.use]
        | false => simp [TagAgg.use, Nat.add_assoc, Nat.add_comm 1]
      · rw [Table.changed_cons_of_ne ht, ih, List.count_cons_of_ne (by simp [ht])]
        simp [Ne.symm ht]

/-- The uses that count, in one post. -/
theorem count_tagUsesOfPost (startDate endDate : Int64) (postVid tagVid : VertexId) :
    (g.tagUsesOfPost startDate endDate postVid).count (tagVid, false) =
      g.usesInPost startDate endDate tagVid postVid := by
  rw [tagUsesOfPost, usesInPost]
  cases g.toOpen.post postVid with
  | none => rfl
  | some post =>
      dsimp only
      by_cases hbefore : post.creationDate < startDate
      · rw [if_pos (Or.inl hbefore), if_neg fun h => absurd hbefore (not_lt.mpr h.1)]
        simp [hbefore, List.count_eq_zero]
      · by_cases hin : post.creationDate < endDate
        · rw [if_pos (Or.inr hin), if_pos ⟨not_lt.mp hbefore, hin⟩]
          have hinj : Function.Injective fun tagVid : VertexId => (tagVid, false) :=
            fun a b h => (Prod.ext_iff.mp h).1
          simp only [hbefore, decide_false]
          exact List.count_map_of_injective _ _ hinj tagVid
        · rw [if_neg (not_or.mpr ⟨hbefore, hin⟩), if_neg fun h => hin h.2, List.count_nil]

/-- The uses that rule a tag out, in one post. -/
theorem mem_tagUsesOfPost {startDate endDate : Int64} {postVid tagVid : VertexId} :
    (tagVid, true) ∈ g.tagUsesOfPost startDate endDate postVid ↔
      ∃ post, g.toOpen.post postVid = some post ∧ post.creationDate < startDate ∧
        tagVid ∈ g.toOpen.hasTagNeighbors postVid := by
  rw [tagUsesOfPost]
  cases g.toOpen.post postVid with
  | none => simp
  | some post =>
      dsimp only
      by_cases hbefore : post.creationDate < startDate
      · rw [if_pos (Or.inl hbefore)]
        simp [hbefore]
      · split <;> simp [hbefore]

/-- **IC4.** The tags that friends used in the span and none before it, the most used ones first. -/
theorem ic4_spec (g : StoredGraph) (o p : IterationOrder) {personId : Int64}
    (hperson : g.person (encodeVid .person personId) ≠ none) (startDate durationDays : Int64)
    (limit : Nat) (rows : List TagCountRow) :
    let start := encodeVid .person personId
    let uses := g.windowUses start startDate (endDate startDate durationDays)
    g.ic4 o p personId startDate durationDays limit = rows ↔
      g.TagRows (fun tagVid => 0 < uses tagVid ∧ ¬g.UsedBefore start startDate tagVid) uses limit
        rows := by
  intro start uses
  let friends := o.hashSet (g.toOpen.knowsNeighbors start)
  let all := friends.flatMap (g.tagUses startDate (endDate startDate durationDays))
  have hcount : ∀ tagVid, all.count (tagVid, false) = uses tagVid := by
    intro tagVid
    have hfriend : ∀ friend, (g.tagUses startDate (endDate startDate durationDays) friend).count
        (tagVid, false) = ((g.toOpen.inPostsCreators friend).map
          (g.usesInPost startDate (endDate startDate durationDays) tagVid)).sum := fun friend => by
      rw [tagUses, List.count_flatMap]
      exact congrArg List.sum (List.map_congr_left fun postVid _ =>
        count_tagUsesOfPost startDate (endDate startDate durationDays) postVid tagVid)
    rw [List.count_flatMap]
    refine Eq.trans ?_ (sum_map_hashSet o _ _)
    exact congrArg List.sum (List.map_congr_left fun friend _ => hfriend friend)
  have hbefore : ∀ tagVid, (tagVid, true) ∈ all ↔ g.UsedBefore start startDate tagVid := by
    intro tagVid
    simp only [all, friends, tagUses, List.mem_flatMap, mem_hashSet, mem_tagUsesOfPost, UsedBefore]
  let byTag : Table VertexId TagAgg :=
    Table.empty.upsertAll .default (all.map fun use => (use.1, TagAgg.use use.2))
  have hget : ∀ tagVid agg, byTag.get tagVid = some agg ↔
      (∃ before, (tagVid, before) ∈ all) ∧
        agg = ⟨uses tagVid, decide ((tagVid, true) ∈ all)⟩ := by
    intro tagVid agg
    have hkeys : tagVid ∈ (all.map fun use => (use.1, TagAgg.use use.2)).map Prod.fst ↔
        ∃ before, (tagVid, before) ∈ all := by
      simp
    rw [Table.get_upsertAll, changed_uses, hcount, Table.get_empty]
    simp only [Option.getD_none, TagAgg.default, Nat.zero_add, Bool.false_or]
    by_cases hmem : ∃ before, (tagVid, before) ∈ all
    · rw [if_pos (hkeys.mpr hmem), Option.some.injEq, and_iff_right hmem, eq_comm]
    · rw [if_neg (mt hkeys.mp hmem)]
      exact iff_of_false nofun fun h => hmem h.1
  have hrows : g.TagRows (fun tagVid => 0 < uses tagVid ∧ ¬g.UsedBefore start startDate tagVid) uses
      limit (g.ic4 o p personId startDate durationDays limit) := by
    have hcandidate : g.ic4Candidate = fun e : VertexId × TagAgg =>
        if !e.2.existedBefore then g.tagCandidate e.1 e.2.inWindowCount else none := by
      funext e
      rw [ic4Candidate]
      cases e.2.existedBefore <;> rfl
    rw [ic4, if_neg hperson]
    dsimp only
    rw [hcandidate]
    refine tagRows_entries (fun agg => !agg.existedBefore) TagAgg.inWindowCount (fun tagVid => ?_)
      (fun tagVid agg hagg _ => ?_) limit
    · -- an entry is kept iff it has only uses in the span, and there is one
      rw [← hcount, List.count_pos_iff, ← hbefore]
      constructor
      · rintro ⟨hin, hnot⟩
        exact ⟨_, (hget tagVid _).mpr ⟨⟨false, hin⟩, rfl⟩, by simp [hnot]⟩
      · rintro ⟨agg, hagg, hkeep⟩
        obtain ⟨⟨before, hmem⟩, rfl⟩ := (hget tagVid agg).mp hagg
        have hnot : (tagVid, true) ∉ all := by simpa using hkeep
        cases before with
        | true => exact absurd hmem hnot
        | false => exact ⟨hmem, hnot⟩
    · obtain ⟨-, rfl⟩ := (hget tagVid agg).mp hagg
      rfl
  exact ⟨fun h => h ▸ hrows, fun h => hrows.unique h⟩

/-- Person 0 knows person 1, who joined forum 3 and wrote post 10 and comment 20. The post has the tags
`lean` and `rust`, is in the forum and was written in `here`; the comment was written in `there`. -/
def oneFriend : StoredGraph where
  edgeProps _ := none
  adjacency key := List.lookup key
    [ ((encodeVid .person 0, EdgeLabel.knows.asI32), [encodeVid .person 1]),
      ((encodeVid .person 1, -EdgeLabel.hasCreator.asI32), [encodeVid .post 10, encodeVid .comment 20]),
      ((encodeVid .post 10, EdgeLabel.hasCreator.asI32), [encodeVid .person 1]),
      ((encodeVid .comment 20, EdgeLabel.hasCreator.asI32), [encodeVid .person 1]),
      ((encodeVid .post 10, EdgeLabel.hasTag.asI32), [encodeVid .tag 1, encodeVid .tag 2]),
      ((encodeVid .tag 1, -EdgeLabel.hasTag.asI32), [encodeVid .post 10]),
      ((encodeVid .person 1, -EdgeLabel.hasMember.asI32), [encodeVid .forum 3]),
      ((encodeVid .post 10, -EdgeLabel.containerOf.asI32), [encodeVid .forum 3]),
      ((encodeVid .place 1, -EdgeLabel.isLocatedIn.asI32), [encodeVid .post 10]),
      ((encodeVid .place 2, -EdgeLabel.isLocatedIn.asI32), [encodeVid .comment 20]) ]
  vertices := Stored.loadVertices <| List.map (fun data => ⟨Stored.VertexData.vid data, data⟩)
    [.person ⟨⟨0, "", "", "", 0, 0, "", "", "", ""⟩, 9⟩,
      .person ⟨⟨1, "", "", "", 0, 0, "", "", "", ""⟩, 9⟩, .forum ⟨3, "proofs", 0, 1⟩,
      .tag ⟨1, "lean", 0⟩, .tag ⟨2, "rust", 0⟩, .place ⟨⟨1, "here"⟩, "country", none⟩,
      .place ⟨⟨2, "there"⟩, "country", none⟩, .post ⟨⟨10, "", 5, ""⟩, "", "", "", 0, 1, 3, 1⟩,
      .comment ⟨⟨20, 5, ""⟩, "", "", 0, 1, 2, none, none⟩]

theorem ic4_spec_oneFriend :
    oneFriend.TagRows
      (fun tagVid => 0 < oneFriend.windowUses (encodeVid .person 0) 0 (endDate 0 1) tagVid ∧
        ¬oneFriend.UsedBefore (encodeVid .person 0) 0 tagVid)
      (oneFriend.windowUses (encodeVid .person 0) 0 (endDate 0 1)) 5 [⟨"lean", 1⟩, ⟨"rust", 1⟩] :=
  (ic4_spec oneFriend inInsertionOrder inInsertionOrder (by decide +kernel) 0 1 5 _).mp
    (by decide +kernel)

/-! ## IC6 -/

variable (g : StoredGraph)

/-- The tags with this name. -/
def TagNamed (name : String) (tagVid : VertexId) : Prop := ∃ tag, g.tag tagVid = some tag ∧ tag.name = name

def findTagVid (o : IterationOrder) (name : String) : Option VertexId :=
  (g.verticesByLabel o .tag).find? fun vid =>
    match g.tag vid with
    | some tag => tag.name = name
    | none => false

/-- The tags beside `tagVid` in one message, if it is a post of one of the friends. -/
def tagsBeside (friends : List VertexId) (tagVid msgVid : VertexId) : List VertexId :=
  if g.toOpen.vertexLabel msgVid ≠ some .post then []
  else
    match g.toOpen.messageCreatorVid msgVid with
    | none => []
    | some creator =>
        if creator ∈ friends then (g.toOpen.hasTagNeighbors msgVid).filter (· ≠ tagVid) else []

def ic6 (o p : IterationOrder) (personId : Int64) (tagName : String) (limit : Nat) :
    List TagCountRow :=
  let startVid := encodeVid .person personId
  if g.person startVid = none then []
  else
    match g.findTagVid p tagName with
    | none => []
    | some tagVid =>
        let friends2hop := g.toOpen.knowsBfs2hop o startVid
        let others := (g.toOpen.inNeighborsCached tagVid .hasTag).flatMap
          (g.tagsBeside friends2hop tagVid)
        let counts : Table VertexId Nat := Table.empty.upsertAll 0 (countAll others)
        let rows := (counts.entries p.order).filterMap fun e => g.tagCandidate e.1 e.2
        ((sortByKey TagCandidate.key rows).take limit).map TagCandidate.row

/-- How often a tag occurs beside `tagVid`: once for every time it is listed in a post that `tagVid`
lists and whose creator is a friend of the person or a friend of one. -/
def besideCount (start tagVid other : VertexId) : Nat :=
  ((g.toOpen.inNeighborsCached tagVid .hasTag).map fun msgVid =>
    if g.toOpen.vertexLabel msgVid = some .post ∧
        ∃ creator ∈ g.toOpen.knowsBfs2hopSet start, g.toOpen.messageCreatorVid msgVid = some creator
    then (g.toOpen.hasTagNeighbors msgVid).count other else 0).sum

/-- The answer for the tag `tagVid`. -/
def BesideRows (start : VertexId) (limit : Nat) (tagVid : VertexId) (rows : List TagCountRow) : Prop :=
  g.TagRows (fun other => other ≠ tagVid ∧ 0 < g.besideCount start tagVid other)
    (g.besideCount start tagVid) limit rows

variable {g}

/-- Looking for a vertex among those of its label finds one, if there is one. -/
theorem find?_verticesByLabel (o : IterationOrder) {label : VertexLabel} {p : VertexId → Bool}
    (hlabel : ∀ vid, p vid = true → g.toOpen.vertexLabel vid = some label) :
    (∀ vid, (g.verticesByLabel o label).find? p = some vid → p vid = true) ∧
      ((g.verticesByLabel o label).find? p = none → ∀ vid, ¬p vid = true) :=
  ⟨fun _ hfind => List.find?_some hfind, fun hfind vid hvid =>
    List.find?_eq_none.mp hfind vid (mem_verticesByLabel.mpr (hlabel vid hvid)) hvid⟩

theorem vertexLabel_of_tag {tagVid : VertexId} {tag : Stored.TagProps} (h : g.tag tagVid = some tag) :
    g.toOpen.vertexLabel tagVid = some .tag := by
  rw [vertexLabel_toOpen]
  rw [StoredGraph.tag] at h
  split at h
  · rename_i heq
    rw [heq]
    rfl
  · cases h

/-- What is found has the name, and something is found if anything has it. -/
theorem findTagVid_eq {o : IterationOrder} {name : String} :
    (∀ tagVid, g.findTagVid o name = some tagVid → g.TagNamed name tagVid) ∧
      (g.findTagVid o name = none → ∀ tagVid, ¬g.TagNamed name tagVid) := by
  let p (vid : VertexId) : Bool :=
    match g.tag vid with
    | some tag => tag.name = name
    | none => false
  have hnamed : ∀ vid, p vid = true ↔ g.TagNamed name vid := by
    intro vid
    simp only [p, TagNamed]
    cases g.tag vid <;> simp
  obtain ⟨hsome, hnone⟩ := @find?_verticesByLabel g o .tag p fun vid hvid =>
    have ⟨_, htag, _⟩ := (hnamed vid).mp hvid
    vertexLabel_of_tag htag
  exact ⟨fun vid hfind => (hnamed vid).mp (hsome vid hfind),
    fun hfind vid => mt (hnamed vid).mpr (hnone hfind vid)⟩

/-- The tags beside `tagVid`, over all its messages. -/
theorem count_tagsBeside (o : IterationOrder) (start : VertexId) {tagVid other : VertexId}
    (hne : other ≠ tagVid) :
    ((g.toOpen.inNeighborsCached tagVid .hasTag).flatMap
      (g.tagsBeside (g.toOpen.knowsBfs2hop o start) tagVid)).count other =
        g.besideCount start tagVid other := by
  rw [List.count_flatMap, besideCount]
  refine congrArg List.sum (List.map_congr_left fun msgVid _ => ?_)
  rw [Function.comp_apply, tagsBeside]
  by_cases hlabel : g.toOpen.vertexLabel msgVid = some .post
  · rw [if_neg (not_not.mpr hlabel)]
    cases hcreator : g.toOpen.messageCreatorVid msgVid with
    | none => simp
    | some creator =>
        have hmem : creator ∈ g.toOpen.knowsBfs2hop o start ↔
            creator ∈ g.toOpen.knowsBfs2hopSet start := by
          rw [← OpenGraph.toFinset_knowsBfs2hop o, List.mem_toFinset]
        by_cases hfriend : creator ∈ g.toOpen.knowsBfs2hop o start
        · dsimp only
          rw [if_pos hfriend, if_pos ⟨hlabel, creator, hmem.mp hfriend, rfl⟩,
            List.count_filter (by simpa using hne)]
        · dsimp only
          rw [if_neg hfriend, if_neg, List.count_nil]
          rintro ⟨-, creator', hset, heq⟩
          cases heq
          exact hfriend (hmem.mpr hset)
  · rw [if_pos hlabel, if_neg fun h => hlabel h.1, List.count_nil]

/-- The tag itself is not counted. -/
theorem notMem_tagsBeside {friends : List VertexId} {tagVid msgVid other : VertexId}
    (h : other ∈ g.tagsBeside friends tagVid msgVid) : other ≠ tagVid := by
  rw [tagsBeside] at h
  split at h
  · cases h
  · split at h
    · cases h
    · split at h
      · exact of_decide_eq_true (List.mem_filter.mp h).2
      · cases h

/-- **IC6.** The answer is one for some tag of that name, or empty if there is none; and if the name
is unique it is the only one. -/
theorem ic6_spec (g : StoredGraph) (o p : IterationOrder) {personId : Int64}
    (hperson : g.person (encodeVid .person personId) ≠ none) (tagName : String) (limit : Nat) :
    let start := encodeVid .person personId
    let answer := g.ic6 o p personId tagName limit
    ((∀ tagVid, ¬g.TagNamed tagName tagVid) → answer = []) ∧
      ((∃ tagVid, g.TagNamed tagName tagVid) →
        ∃ tagVid, g.TagNamed tagName tagVid ∧ g.BesideRows start limit tagVid answer) ∧
      ∀ tagVid, g.TagNamed tagName tagVid → (∀ other, g.TagNamed tagName other → other = tagVid) →
        ∀ rows, g.BesideRows start limit tagVid rows ↔ answer = rows := by
  intro start answer
  obtain ⟨hsome, hnone⟩ := @findTagVid_eq g p tagName
  have hanswer : ∀ tagVid, g.findTagVid p tagName = some tagVid →
      g.BesideRows start limit tagVid answer := by
    intro tagVid hfind
    let others := (g.toOpen.inNeighborsCached tagVid .hasTag).flatMap
      (g.tagsBeside (g.toOpen.knowsBfs2hop o start) tagVid)
    have hrows : answer = ((sortByKey TagCandidate.key ((Table.entries p.order
        (Table.empty.upsertAll 0 (countAll others))).filterMap fun e : VertexId × Nat =>
          if true then g.tagCandidate e.1 e.2 else none)).take limit).map TagCandidate.row := by
      simp only [answer, ic6, if_neg hperson, hfind]
      rfl
    have hmem : ∀ other, other ∈ others ↔ other ≠ tagVid ∧ 0 < g.besideCount start tagVid other := by
      intro other
      constructor
      · intro h
        obtain ⟨msgVid, -, hbeside⟩ := List.mem_flatMap.mp h
        have hne := notMem_tagsBeside hbeside
        rw [← count_tagsBeside o start hne]
        exact ⟨hne, List.count_pos_iff.mpr h⟩
      · rintro ⟨hne, hpos⟩
        rw [← count_tagsBeside o start hne] at hpos
        exact List.count_pos_iff.mp hpos
    rw [hrows]
    refine tagRows_entries (fun _ => true) (fun n => n) (fun other => ?_) (fun other n hn _ => ?_) limit
    · rw [← hmem, get_countAll]
      simp
    · rw [get_countAll] at hn
      split at hn
      · rename_i hother
        cases hn
        exact count_tagsBeside o start ((hmem other).mp hother).1
      · cases hn
  refine ⟨fun hno => ?_, fun ⟨tagVid, hnamed⟩ => ?_, fun tagVid hnamed hunique rows => ?_⟩
  · cases hfind : g.findTagVid p tagName with
    | none => simp only [answer, ic6, if_neg hperson, hfind]
    | some tagVid => exact absurd (hsome tagVid hfind) (hno tagVid)
  · cases hfind : g.findTagVid p tagName with
    | none => exact absurd hnamed (hnone hfind tagVid)
    | some found => exact ⟨found, hsome found hfind, hanswer found hfind⟩
  · cases hfind : g.findTagVid p tagName with
    | none => exact absurd hnamed (hnone hfind tagVid)
    | some found =>
        have heq := hunique found (hsome found hfind)
        subst heq
        exact ⟨fun h => (hanswer found hfind).unique h, fun h => h ▸ hanswer found hfind⟩

theorem ic6_spec_oneFriend :
    ∃ tagVid, oneFriend.TagNamed "lean" tagVid ∧
      oneFriend.BesideRows (encodeVid .person 0) 5 tagVid [⟨"rust", 1⟩] := by
  have hanswer : oneFriend.ic6 inInsertionOrder inInsertionOrder 0 "lean" 5 = [⟨"rust", 1⟩] := by
    decide +kernel
  have hnamed : oneFriend.TagNamed "lean" (encodeVid .tag 1) :=
    ⟨⟨1, "lean", 0⟩, by decide +kernel, rfl⟩
  have hspec := ic6_spec oneFriend inInsertionOrder inInsertionOrder
    (show oneFriend.person (encodeVid .person 0) ≠ none by decide +kernel) "lean" 5
  exact hanswer ▸ hspec.2.1 ⟨_, hnamed⟩

end StoredGraph

end LsmGraph
