import LsmGraph.Snb.TagCounts
import Mathlib.Data.Finset.Sort

/-! # IC3 and IC5: counting messages by person and by forum

`ic5` counts, for the forums that the friends of a person and their friends joined late enough, the
posts that these members wrote there; it changes entries of a map that it has made before, with an
`unwrap` that must not fail. `ic3` counts the messages that friends from elsewhere wrote from two
countries. As for the tags, `ic5_spec` and `ic3_spec` say what the answers are without maps. -/

namespace LsmGraph

open KeyedSort Tally

/-- The largest count first, and equal counts by id. -/
def countIdKey (count : Nat) (id : Int64) : ℕᵒᵈ ×ₗ Int64 := toLex (OrderDual.toDual count, id)

theorem countIdKey_inj {count count' : Nat} {id id' : Int64}
    (h : countIdKey count id = countIdKey count' id') : count = count' ∧ id = id' := by
  have hpair := Prod.ext_iff.mp (toLex.injective h)
  exact ⟨OrderDual.toDual.injective hpair.1, hpair.2⟩

/-- The vertices of a set, the least first. -/
abbrev ascending (s : Finset VertexId) : List VertexId := s.sort (· ≤ ·)

namespace StoredGraph

variable (g : StoredGraph)

/-! ## IC5 -/

structure Ic5Row where
  forumTitle : String
  postCount : Nat
  deriving DecidableEq, Repr

/-- The forums that a person joined at `minDate` or later. -/
def qualForums (minDate : Int64) (friend : VertexId) : List VertexId :=
  ((g.toOpen.inEdgesWithProp friend .hasMember).filter fun e => minDate ≤ e.2.asI64).map Prod.fst

/-- The forums of a person's posts, once for every post in it, as far as the person joined them. -/
def forumPosts (minDate : Int64) (friend : VertexId) : List VertexId :=
  (g.toOpen.inPostsCreators friend).flatMap fun postVid =>
    (g.toOpen.inNeighborsCached postVid .containerOf).filter (· ∈ g.qualForums minDate friend)

/-- `*forum_posts.get_mut(&forum_vid).unwrap() += 1`. -/
def bump (t : Table VertexId Nat) (forumVid : VertexId) : Option (Table VertexId Nat) :=
  (t.get forumVid).map fun count => t.insert forumVid (count + 1)

/-- The body of the loop over the friends; `none` is a panic. -/
def ic5Friend (minDate : Int64) (t : Table VertexId Nat) (friend : VertexId) :
    Option (Table VertexId Nat) :=
  let qualForums := g.qualForums minDate friend
  let t := qualForums.foldl (fun t forumVid => t.upsert 0 forumVid id) t
  if qualForums = [] then some t else (g.forumPosts minDate friend).foldlM bump t

/-- An entry with the id of its forum, as it is sorted. -/
structure Ic5Candidate where
  count : Nat
  forumId : Int64
  forumVid : VertexId

def ic5Candidate (entry : VertexId × Nat) : Option Ic5Candidate :=
  some ⟨entry.2, ((g.forum entry.1).map Stored.ForumProps.id).getD 0, entry.1⟩

def ic5Row (c : Ic5Candidate) : Ic5Row :=
  ⟨((g.forum c.forumVid).map Stored.ForumProps.title).getD "", c.count⟩

/-- `none` is a panic. -/
def ic5 (o p : IterationOrder) (personId minDate : Int64) (limit : Nat) : Option (List Ic5Row) := do
  let startVid := encodeVid .person personId
  if g.person startVid = none then some []
  else
    let forumPosts ← (g.toOpen.knowsBfs2hop o startVid).foldlM (g.ic5Friend minDate) Table.empty
    let rows := (forumPosts.entries p.order).filterMap g.ic5Candidate
    some (((sortByKey (fun c : Ic5Candidate => countIdKey c.count c.forumId) rows).take limit).map
      g.ic5Row)

/-- A friend of the person, or a friend of one, joined the forum at `minDate` or later. -/
def JoinedByFriend (start : VertexId) (minDate : Int64) (forumVid : VertexId) : Prop :=
  ∃ friend ∈ g.toOpen.knowsBfs2hopSet start, forumVid ∈ g.qualForums minDate friend

/-- The posts in a forum that these members wrote. -/
def memberPosts (start : VertexId) (minDate : Int64) (forumVid : VertexId) : Nat :=
  ∑ friend ∈ g.toOpen.knowsBfs2hopSet start,
    if forumVid ∈ g.qualForums minDate friend then
      ((g.toOpen.inPostsCreators friend).map fun postVid =>
        (g.toOpen.inNeighborsCached postVid .containerOf).count forumVid).sum
    else 0

/-- The answer of `ic5`. -/
def ForumRows (start : VertexId) (minDate : Int64) : Nat → List Ic5Row → Prop :=
  TopRows (g.JoinedByFriend start minDate)
    (fun forumVid => countIdKey (g.memberPosts start minDate forumVid)
      (((g.forum forumVid).map Stored.ForumProps.id).getD 0))
    (fun forumVid => ⟨((g.forum forumVid).map Stored.ForumProps.title).getD "",
      g.memberPosts start minDate forumVid⟩)

variable {g}

/-- What the loop does to the map, as a list of changes: entries are made before they are counted. -/
def forumChanges (g : StoredGraph) (minDate : Int64) (friend : VertexId) :
    List (VertexId × (Nat → Nat)) :=
  ((g.qualForums minDate friend).map fun forumVid => (forumVid, id)) ++
    countAll (g.forumPosts minDate friend)

/-- Counting entries that are there does not panic. -/
theorem foldlM_bump {t : Table VertexId Nat} {forums : List VertexId}
    (h : ∀ forumVid ∈ forums, t.get forumVid ≠ none) :
    forums.foldlM bump t = some (t.upsertAll 0 (countAll forums)) := by
  induction forums generalizing t with
  | nil => rfl
  | cons forumVid forums ih =>
      obtain ⟨hforum, hforums⟩ := List.forall_mem_cons.mp h
      obtain ⟨count, hcount⟩ := Option.ne_none_iff_exists'.mp hforum
      have hbump : bump t forumVid = some (t.upsert 0 forumVid (· + 1)) := by
        rw [bump, hcount, Table.upsert, hcount]
        rfl
      rw [List.foldlM_cons, hbump]
      refine ih fun forumVid' hforum' => ?_
      rw [Table.upsert, Table.get_insert]
      split
      · exact Option.some_ne_none _
      · exact hforums forumVid' hforum'

theorem ic5Friend_eq (minDate : Int64) (t : Table VertexId Nat) (friend : VertexId) :
    g.ic5Friend minDate t friend = some (t.upsertAll 0 (forumChanges g minDate friend)) := by
  have hquals : ∀ (t : Table VertexId Nat) (l : List VertexId),
      l.foldl (fun t forumVid => t.upsert 0 forumVid id) t =
        t.upsertAll 0 (l.map fun forumVid => (forumVid, id)) := fun t l => by
    rw [Table.upsertAll, List.foldl_map]
  rw [ic5Friend, hquals, forumChanges, Table.upsertAll_append]
  split
  · rename_i hempty
    have hposts : g.forumPosts minDate friend = [] := by
      rw [forumPosts, hempty]
      simp
    rw [hposts]
    rfl
  · refine foldlM_bump fun forumVid hforum => ?_
    obtain ⟨postVid, -, hmem⟩ := List.mem_flatMap.mp hforum
    have hqual : forumVid ∈ g.qualForums minDate friend :=
      of_decide_eq_true (List.mem_filter.mp hmem).2
    have hkey : forumVid ∈ ((g.qualForums minDate friend).map fun forumVid =>
        (forumVid, (id : Nat → Nat))).map Prod.fst := by simpa using hqual
    rw [Table.get_upsertAll, if_pos hkey]
    exact Option.some_ne_none _

theorem foldlM_ic5Friend (minDate : Int64) (t : Table VertexId Nat) (friends : List VertexId) :
    friends.foldlM (g.ic5Friend minDate) t =
      some (t.upsertAll 0 (friends.flatMap (forumChanges g minDate))) := by
  induction friends generalizing t with
  | nil => rfl
  | cons friend friends ih =>
      rw [List.foldlM_cons, ic5Friend_eq, List.flatMap_cons, Table.upsertAll_append]
      exact ih _

theorem changed_forumChanges (minDate : Int64) (friends : List VertexId) (forumVid : VertexId)
    (n : Nat) :
    Table.changed forumVid (friends.flatMap (forumChanges g minDate)) n =
      n + (friends.map fun friend => (g.forumPosts minDate friend).count forumVid).sum := by
  induction friends generalizing n with
  | nil => rfl
  | cons friend friends ih =>
      rw [List.flatMap_cons, forumChanges, Table.changed_append, Table.changed_append,
        Table.changed_map_const, Function.iterate_id, changed_countAll, ih, List.map_cons,
        List.sum_cons, Nat.add_assoc]
      rfl

theorem count_forumPosts (minDate : Int64) (friend forumVid : VertexId) :
    (g.forumPosts minDate friend).count forumVid =
      if forumVid ∈ g.qualForums minDate friend then
        ((g.toOpen.inPostsCreators friend).map fun postVid =>
          (g.toOpen.inNeighborsCached postVid .containerOf).count forumVid).sum
      else 0 := by
  rw [forumPosts]
  split
  · rename_i hqual
    rw [List.count_flatMap]
    refine congrArg List.sum (List.map_congr_left fun postVid _ => ?_)
    exact List.count_filter (decide_eq_true hqual)
  · rename_i hqual
    rw [List.count_eq_zero]
    intro hmem
    obtain ⟨postVid, -, hforum⟩ := List.mem_flatMap.mp hmem
    exact hqual (of_decide_eq_true (List.mem_filter.mp hforum).2)

/-- The keys that the loop makes are the forums that were joined. -/
theorem mem_keys_forumChanges (minDate : Int64) (friends : List VertexId) (forumVid : VertexId) :
    forumVid ∈ (friends.flatMap (forumChanges g minDate)).map Prod.fst ↔
      ∃ friend ∈ friends, forumVid ∈ g.qualForums minDate friend := by
  rw [List.map_flatMap, List.mem_flatMap]
  refine exists_congr fun friend => and_congr_right fun _ => ?_
  have hkeys : (forumChanges g minDate friend).map Prod.fst =
      g.qualForums minDate friend ++ g.forumPosts minDate friend := by
    rw [forumChanges, countAll, List.map_append, List.map_map, List.map_map]
    exact congrArg₂ (· ++ ·) (List.map_id _) (List.map_id _)
  rw [hkeys, List.mem_append, or_iff_left_iff_imp]
  intro hmem
  obtain ⟨postVid, -, hforum⟩ := List.mem_flatMap.mp hmem
  exact of_decide_eq_true (List.mem_filter.mp hforum).2

variable (g : StoredGraph)

structure Ic3Row where
  personId : Int64
  personFirstName : String
  personLastName : String
  xCount : Nat
  yCount : Nat
  count : Nat
  deriving DecidableEq, Repr

def CountryNamed (name : String) (vid : VertexId) : Prop :=
  ∃ place, g.place vid = some place ∧ place.name = name ∧ place.placeType = "country"

def findCountryVid (o : IterationOrder) (name : String) : Option VertexId :=
  (g.verticesByLabel o .place).find? fun vid =>
    match g.place vid with
    | some place => place.name = name ∧ place.placeType = "country"
    | none => false

/-- The persons who live in one of the two countries. -/
def collectXyPersons (countryX countryY : Option VertexId) : Finset VertexId :=
  ((countryX.toList ++ countryY.toList).flatMap fun country =>
    (g.toOpen.inNeighborsCached country .isPartOf).flatMap fun city =>
      (g.toOpen.inNeighborsCached city .isLocatedIn).filter fun person =>
        g.toOpen.vertexLabel person = some .person).toFinset

/-- An element of the list that `place_incoming_messages` returns. -/
structure IncomingMessage where
  msgVid : VertexId
  kind : UInt8
  creationDate : Int64
  creator : VertexId

/-- The kind and the date of a message: 1 for a post, 2 for a comment. -/
def messageKindDate (msgVid : VertexId) : Option (UInt8 × Int64) :=
  match g.toOpen.vertexLabel msgVid with
  | some .post => (g.toOpen.post msgVid).map fun post => (1, post.creationDate)
  | some .comment => (g.toOpen.comment msgVid).map fun comment => (2, comment.creationDate)
  | _ => none

def placeIncomingMessages (placeVid : VertexId) (startDate endDate : Int64) : List IncomingMessage :=
  (g.toOpen.inNeighborsCached placeVid .isLocatedIn).filterMap fun msgVid => do
    let (kind, date) ← g.messageKindDate msgVid
    if startDate ≤ date ∧ date < endDate then
      let creator ← g.toOpen.messageCreatorVid msgVid
      some ⟨msgVid, kind, date, creator⟩
    else none

/-- The creators who are counted for a country, once for every message. -/
def countedCreators (nonXyPersons : Finset VertexId) (country : Option VertexId)
    (startDate endDate : Int64) : List VertexId :=
  match country with
  | none => []
  | some country =>
      ((g.placeIncomingMessages country startDate endDate).map IncomingMessage.creator).filter
        (· ∈ nonXyPersons)

structure Ic3Candidate where
  count : Nat
  personId : Int64
  vid : VertexId
  xCount : Nat
  yCount : Nat

def ic3Candidate (entry : VertexId × (Nat × Nat)) : Option Ic3Candidate :=
  if 0 < entry.2.1 ∧ 0 < entry.2.2 then
    (g.person entry.1).map fun p =>
      ⟨entry.2.1 + entry.2.2, p.id, entry.1, entry.2.1, entry.2.2⟩
  else none

/-- The person of a row is looked up again; `none` is a panic. -/
def ic3Row (c : Ic3Candidate) : Option Ic3Row :=
  (g.person c.vid).map fun p => ⟨p.id, p.firstName, p.lastName, c.xCount, c.yCount, c.count⟩

/-- The map of counts, after the messages of both countries. -/
def xyCounts (nonXyPersons : Finset VertexId) (countryX countryY : Option VertexId)
    (startDate endDate : Int64) : Table VertexId (Nat × Nat) :=
  (Table.const (ascending nonXyPersons) (nonXyPersons.sort_nodup _) (0, 0)).upsertAll (0, 0)
    (((g.countedCreators nonXyPersons countryX startDate endDate).map fun creator =>
        (creator, fun n : Nat × Nat => (n.1 + 1, n.2))) ++
      (g.countedCreators nonXyPersons countryY startDate endDate).map fun creator =>
        (creator, fun n : Nat × Nat => (n.1, n.2 + 1)))

def ic3 (o p : IterationOrder) (personId : Int64) (countryXName countryYName : String)
    (startDate durationDays : Int64) (limit : Nat) : Option (List Ic3Row) :=
  let startVid := encodeVid .person personId
  if g.person startVid = none then some []
  else
    let endDate := endDate startDate durationDays
    let countryX := g.findCountryVid o countryXName
    let countryY := g.findCountryVid o countryYName
    let xyPersons := g.collectXyPersons countryX countryY
    let nonXyPersons := (g.toOpen.bfsNonXyFriends startVid xyPersons).1
    if nonXyPersons = ∅ then some []
    else
      let counts := g.xyCounts nonXyPersons countryX countryY startDate endDate
      let rows := (counts.entries p.order).filterMap g.ic3Candidate
      ((sortByKey (fun c : Ic3Candidate => countIdKey c.count c.personId) rows).take limit).mapM
        g.ic3Row

/-- The country that a name stands for, if it stands for one. -/
def IsCountry (name : String) (country : Option VertexId) : Prop :=
  match country with
  | some vid => g.CountryNamed name vid
  | none => ∀ vid, ¬g.CountryNamed name vid

/-- A friend of the person or a friend of one, who lives in neither country. -/
def FromElsewhere (start : VertexId) (countryX countryY : Option VertexId) (v : VertexId) : Prop :=
  v ∉ g.collectXyPersons countryX countryY ∧
    (v ∈ g.toOpen.knowsNeighbors start ∨ v ≠ start ∧ g.toOpen.Within2 start v)

/-- The messages a person wrote from a country in the span. -/
def messagesFrom (country : Option VertexId) (startDate endDate : Int64) (v : VertexId) : Nat :=
  match country with
  | none => 0
  | some country =>
      (g.toOpen.inNeighborsCached country .isLocatedIn).countP fun msgVid =>
        (∃ kindDate ∈ g.messageKindDate msgVid, startDate ≤ kindDate.2 ∧ kindDate.2 < endDate) ∧
          g.toOpen.messageCreatorVid msgVid = some v

def personOf (v : VertexId) : PersonProps := (g.person v).getD ⟨0, "", "", "", 0, 0, "", "", "", ""⟩

/-- The answer of `ic3`, from these countries and for this span. -/
def CountryRows (start : VertexId) (countryX countryY : Option VertexId) (startDate endDate : Int64) :
    Nat → List Ic3Row → Prop :=
  let x := g.messagesFrom countryX startDate endDate
  let y := g.messagesFrom countryY startDate endDate
  TopRows
    (fun v => g.person v ≠ none ∧ g.FromElsewhere start countryX countryY v ∧ 0 < x v ∧ 0 < y v)
    (fun v => countIdKey (x v + y v) (g.personOf v).id)
    (fun v => ⟨(g.personOf v).id, (g.personOf v).firstName, (g.personOf v).lastName, x v, y v,
      x v + y v⟩)

variable {g}

theorem isCountry_findCountryVid (o : IterationOrder) (name : String) :
    g.IsCountry name (g.findCountryVid o name) := by
  cases hfind : g.findCountryVid o name with
  | some vid =>
      have hname := List.find?_some hfind
      split at hname
      · rename_i place hplace
        exact ⟨place, hplace, of_decide_eq_true hname⟩
      · cases hname
  | none =>
      rintro vid ⟨place, hplace, hname⟩
      have hlabel : vid ∈ g.verticesByLabel o .place := by
        rw [mem_verticesByLabel, vertexLabel_toOpen]
        rw [StoredGraph.place] at hplace
        split at hplace
        · rename_i heq
          rw [heq]
          rfl
        · cases hplace
      have hnot := List.find?_eq_none.mp hfind vid hlabel
      rw [hplace] at hnot
      exact hnot (decide_eq_true hname)

theorem personOf_eq {v : VertexId} {person : PersonProps} (h : g.person v = some person) :
    g.personOf v = person := by
  rw [personOf, h]
  rfl

/-- Persons with one id are one person. -/
theorem eq_of_personOf_id_eq (hkeys : Stored.WellKeyed g.vertices) {a b : VertexId}
    (ha : g.person a ≠ none) (hb : g.person b ≠ none) (hid : (g.personOf a).id = (g.personOf b).id) :
    a = b := by
  obtain ⟨pa, hpa⟩ := Option.ne_none_iff_exists'.mp ha
  obtain ⟨pb, hpb⟩ := Option.ne_none_iff_exists'.mp hb
  rw [personOf_eq hpa, personOf_eq hpb] at hid
  rw [vid_of_person hkeys hpa, vid_of_person hkeys hpb, hid]

/-- The messages that are counted for a person. -/
theorem count_countedCreators {nonXyPersons : Finset VertexId} {v : VertexId} (hv : v ∈ nonXyPersons)
    (country : Option VertexId) (startDate endDate : Int64) :
    (g.countedCreators nonXyPersons country startDate endDate).count v =
      g.messagesFrom country startDate endDate v := by
  cases country with
  | none => rfl
  | some country =>
      have hfilter : ∀ l : List VertexId, (l.filter (· ∈ nonXyPersons)).count v = l.count v :=
        fun l => List.count_filter (decide_eq_true hv)
      rw [countedCreators, hfilter, messagesFrom, List.count, List.countP_map, placeIncomingMessages,
        List.countP_filterMap]
      refine List.countP_congr fun msgVid _ => ?_
      cases hkind : g.messageKindDate msgVid with
      | none => simp
      | some kindDate =>
          by_cases hin : startDate ≤ kindDate.2 ∧ kindDate.2 < endDate
          · cases hcreator : g.toOpen.messageCreatorVid msgVid <;> simp [hin]
          · simp [hin]

/-- What the two loops make of the counts of a person. -/
theorem changed_xy (v : VertexId) (xs ys : List VertexId) :
    Table.changed v
      ((xs.map fun creator => (creator, fun n : Nat × Nat => (n.1 + 1, n.2))) ++
        ys.map fun creator => (creator, fun n : Nat × Nat => (n.1, n.2 + 1))) (0, 0) =
      (xs.count v, ys.count v) := by
  have hx : ∀ m a b, (fun n : Nat × Nat => (n.1 + 1, n.2))^[m] (a, b) = (a + m, b) := by
    intro m
    induction m with
    | zero => exact fun a b => rfl
    | succ m ih => exact fun a b => by rw [Function.iterate_succ_apply, ih, Nat.add_right_comm]; rfl
  have hy : ∀ m a b, (fun n : Nat × Nat => (n.1, n.2 + 1))^[m] (a, b) = (a, b + m) := by
    intro m
    induction m with
    | zero => exact fun a b => rfl
    | succ m ih => exact fun a b => by rw [Function.iterate_succ_apply, ih, Nat.add_right_comm]; rfl
  rw [Table.changed_append, Table.changed_map_const, Table.changed_map_const, hx, hy, Nat.zero_add,
    Nat.zero_add]

/-- Rows of persons that are there. -/
theorem mapM_eq_some_map {α β : Type} {f : α → Option β} {row : α → β} {l : List α}
    (h : ∀ a ∈ l, f a = some (row a)) : l.mapM f = some (l.map row) := by
  induction l with
  | nil => rfl
  | cons a l ih =>
      obtain ⟨ha, hl⟩ := List.forall_mem_cons.mp h
      rw [List.mapM_cons, ha, ih hl]
      rfl

/-- The row of a candidate whose person is there. -/
def rowOfCandidate (g : StoredGraph) (c : Ic3Candidate) : Ic3Row :=
  ⟨(g.personOf c.vid).id, (g.personOf c.vid).firstName, (g.personOf c.vid).lastName, c.xCount,
    c.yCount, c.count⟩

theorem ic3Candidate_eq_some {v : VertexId} {n : Nat × Nat} {c : Ic3Candidate} :
    g.ic3Candidate (v, n) = some c ↔
      (0 < n.1 ∧ 0 < n.2) ∧ ∃ p, g.person v = some p ∧ c = ⟨n.1 + n.2, p.id, v, n.1, n.2⟩ := by
  rw [ic3Candidate]
  split
  · rename_i hpos
    rw [Option.map_eq_some_iff, and_iff_right hpos]
    simp only [eq_comm]
  · rename_i hpos
    exact iff_of_false nofun fun h => hpos h.1

theorem mem_of_mem_countedCreators {nonXy : Finset VertexId} {country : Option VertexId}
    {startDate endDate : Int64} {v : VertexId}
    (h : v ∈ g.countedCreators nonXy country startDate endDate) : v ∈ nonXy := by
  cases country with
  | none => cases h
  | some country => exact of_decide_eq_true (List.mem_filter.mp h).2

/-- **The map of counts** has the persons from elsewhere, with their messages. -/
theorem get_xyCounts (nonXy : Finset VertexId) (x y : Option VertexId) (startDate endDate : Int64)
    (v : VertexId) (n : Nat × Nat) :
    (g.xyCounts nonXy x y startDate endDate).get v = some n ↔ v ∈ nonXy ∧
      n = (g.messagesFrom x startDate endDate v, g.messagesFrom y startDate endDate v) := by
  have hstart : ((Table.const (ascending nonXy) (nonXy.sort_nodup _) ((0, 0) : Nat × Nat)).get v) =
      if v ∈ nonXy then some (0, 0) else none := if_congr (nonXy.mem_sort _) rfl rfl
  rw [xyCounts]
  by_cases hv : v ∈ nonXy
  · rw [Table.get_upsertAll_of_some (hstart.trans (if_pos hv)), changed_xy, count_countedCreators hv,
      count_countedCreators hv, Option.some.injEq, and_iff_right hv, eq_comm]
  · rw [Table.get_upsertAll, if_neg, hstart, if_neg hv]
    · exact iff_of_false nofun fun h => hv h.1
    · intro hkey
      obtain ⟨c, hc, rfl⟩ := List.mem_map.mp hkey
      rcases List.mem_append.mp hc with hc | hc
      · obtain ⟨creator, hcreator, rfl⟩ := List.mem_map.mp hc
        exact hv (mem_of_mem_countedCreators hcreator)
      · obtain ⟨creator, hcreator, rfl⟩ := List.mem_map.mp hc
        exact hv (mem_of_mem_countedCreators hcreator)

/-- The answer for the countries that were found. -/
theorem ic3_found (g : StoredGraph) (o p : IterationOrder) {personId : Int64}
    (hperson : g.person (encodeVid .person personId) ≠ none) (countryXName countryYName : String)
    (startDate durationDays : Int64) (limit : Nat) :
    ∃ answer, g.ic3 o p personId countryXName countryYName startDate durationDays limit = some answer ∧
      g.CountryRows (encodeVid .person personId) (g.findCountryVid o countryXName)
        (g.findCountryVid o countryYName) startDate (endDate startDate durationDays) limit answer := by
  rw [ic3, if_neg hperson]
  dsimp only
  generalize g.findCountryVid o countryXName = x
  generalize g.findCountryVid o countryYName = y
  generalize endDate startDate durationDays = endDate
  generalize hset : (g.toOpen.bfsNonXyFriends (encodeVid .person personId)
    (g.collectXyPersons x y)).1 = nonXy
  have hnonXy : ∀ v, v ∈ nonXy ↔ g.FromElsewhere (encodeVid .person personId) x y v := fun v =>
    hset ▸ (g.toOpen.bfsNonXyFriends_spec _ _).1 v
  have hget := @get_xyCounts g nonXy x y startDate endDate
  by_cases hempty : nonXy = ∅
  · rw [if_pos hempty]
    refine ⟨[], rfl, [], List.nodup_nil, fun v => ?_, List.Pairwise.nil, by rw [List.take_nil]; rfl⟩
    refine iff_of_false List.not_mem_nil fun h => ?_
    exact absurd ((hnonXy v).mpr h.2.1) (hempty ▸ Finset.notMem_empty v)
  · rw [if_neg hempty]
    have hrow : ∀ c ∈ (sortByKey (fun c : Ic3Candidate => countIdKey c.count c.personId)
        (((g.xyCounts nonXy x y startDate endDate).entries p.order).filterMap
          g.ic3Candidate)).take limit,
          g.ic3Row c = some (g.rowOfCandidate c) := by
      intro c hc
      obtain ⟨⟨v, n⟩, -, hcand⟩ := List.mem_filterMap.mp (mem_sortByKey.mp (List.mem_of_mem_take hc))
      obtain ⟨-, person, hp, rfl⟩ := ic3Candidate_eq_some.mp hcand
      rw [ic3Row, rowOfCandidate, personOf_eq hp, hp]
      rfl
    refine ⟨_, mapM_eq_some_map hrow, ?_⟩
    refine topRows_entries p.perm Ic3Candidate.vid (fun v n c hc => ?_) (fun v => ?_)
      (fun v n c hn hc => ?_) limit
    · obtain ⟨-, person, -, rfl⟩ := ic3Candidate_eq_some.mp hc
      rfl
    · rw [← hnonXy, Option.ne_none_iff_exists']
      constructor
      · rintro ⟨⟨person, hp⟩, hv, hpos⟩
        exact ⟨_, _, (hget v _).mpr ⟨hv, rfl⟩, ic3Candidate_eq_some.mpr ⟨hpos, person, hp, rfl⟩⟩
      · rintro ⟨n, c, hn, hc⟩
        obtain ⟨hv, rfl⟩ := (hget v n).mp hn
        obtain ⟨hpos, person, hp, -⟩ := ic3Candidate_eq_some.mp hc
        exact ⟨⟨person, hp⟩, hv, hpos⟩
    · obtain ⟨-, rfl⟩ := (hget v n).mp hn
      obtain ⟨-, person, hp, rfl⟩ := ic3Candidate_eq_some.mp hc
      rw [rowOfCandidate, personOf_eq hp]
      exact ⟨rfl, rfl⟩

end StoredGraph

end LsmGraph
