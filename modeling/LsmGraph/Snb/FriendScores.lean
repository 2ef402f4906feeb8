import LsmGraph.Snb.Mirror
import LsmGraph.Snb.NamedFriends
import LsmGraph.Snb.PostCounts
import Mathlib.Data.FinEnum
import Mathlib.Data.Set.Finite.Basic

/-! # IC10, IC11 and IC12: friends by what they write and where they work

`ic10` rates the friends of friends who have their birthday around the turn of a month: a post with a
tag that the person is interested in counts for them, any other post against. `ic12` counts the replies
of the friends to posts with a tag of a class, for which it follows the hierarchy of classes. `ic11`
lists where friends and their friends work. None of them panics, and `ic10_spec`, `ic11_spec` and
`ic12_spec` say what the answers are. -/

namespace LsmGraph

open KeyedSort Tally

/-- The greatest score first, and equal scores by id. -/
def scoreIdKey (score : Int) (id : Int64) : ℤᵒᵈ ×ₗ Int64 := toLex (OrderDual.toDual score, id)

theorem scoreIdKey_inj {score score' : Int} {id id' : Int64}
    (h : scoreIdKey score id = scoreIdKey score' id') : score = score' ∧ id = id' := by
  have hpair := Prod.ext_iff.mp (toLex.injective h)
  exact ⟨OrderDual.toDual.injective hpair.1, hpair.2⟩

/-- The date of a time stamp is computed without a panic. -/
theorem birthdayInMonthDayRange_ne_none (ts : Int64) (month : UInt32) :
    birthdayInMonthDayRange ts month ≠ none := by
  have hlow := ts.le_toInt
  have hhigh := ts.toInt_lt
  obtain ⟨date, -, -, hcivil⟩ := @civilFromDays_spec (ts.toInt / dayMs) (by rw [dayMs]; omega)
  rw [birthdayInMonthDayRange, civilFromUnixMs, hcivil]
  exact Option.some_ne_none _

/-- A loop that may panic, and does not. -/
theorem filterMapM_eq_some {α β : Type} {f : α → Option (Option β)} {f' : α → Option β} {l : List α}
    (h : ∀ a, f a = some (f' a)) : l.filterMapM f = some (l.filterMap f') := by
  induction l with
  | nil => rfl
  | cons a l ih =>
      rw [List.filterMapM_cons, h, List.filterMap_cons, Option.bind_eq_bind, Option.bind_some, ih]
      cases f' a <;> rfl

namespace StoredGraph

variable (g : StoredGraph)

/-! ## IC10 -/

structure Ic10Row where
  personId : Int64
  personFirstName : String
  personLastName : String
  commonInterestScore : Int
  personGender : String
  personCityName : String
  deriving DecidableEq, Repr

structure Ic10Candidate where
  score : Int
  personId : Int64
  vid : VertexId

/-- The body of the loop over the friends of friends; the outer `none` is a panic. -/
def ic10Candidate (personTags : List VertexId) (month : UInt32) (fof : VertexId) :
    Option (Option Ic10Candidate) :=
  match g.person fof with
  | none => some none
  | some person => do
      if ← birthdayInMonthDayRange person.birthday month then
        let posts := g.toOpen.inPostsCreators fof
        let total : Int := posts.length
        let common : Int :=
          (posts.filter fun post => (g.toOpen.hasTagNeighbors post).any (· ∈ personTags)).length
        some (some ⟨2 * common - total, person.id, fof⟩)
      else some none

def ic10Row (c : Ic10Candidate) : Option Ic10Row :=
  (g.person c.vid).map fun person =>
    { personId := person.id
      personFirstName := person.firstName
      personLastName := person.lastName
      commonInterestScore := c.score
      personGender := person.gender
      personCityName := g.toOpen.personCityName c.vid }

/-- `none` is a panic. -/
def ic10 (o : IterationOrder) (personId : Int64) (month : UInt32) (limit : Nat) :
    Option (List Ic10Row) :=
  let start := encodeVid .person personId
  if g.person start = none then some []
  else
    let personTags := g.toOpen.outNeighborsCached start .hasInterest
    if personTags = [] then some []
    else do
      let rows ← (o.order (ascending (g.toOpen.knowsFof start))).filterMapM
        (g.ic10Candidate personTags month)
      ((sortByKey (fun c : Ic10Candidate => scoreIdKey c.score c.personId) rows).take limit).mapM
        g.ic10Row

/-- A post has a tag that the person is interested in. -/
def OfInterest (start post : VertexId) : Prop :=
  ∃ tag ∈ g.toOpen.hasTagNeighbors post, tag ∈ g.toOpen.outNeighborsCached start .hasInterest

instance (start post : VertexId) : Decidable (g.OfInterest start post) :=
  List.decidableBEx (fun tag => tag ∈ g.toOpen.outNeighborsCached start .hasInterest)
    (g.toOpen.hasTagNeighbors post)

/-- The posts of interest less the others. -/
def interestScore (start v : VertexId) : Int :=
  (((g.toOpen.inPostsCreators v).countP fun post => g.OfInterest start post : Nat) : Int) -
    ((g.toOpen.inPostsCreators v).countP fun post => ¬g.OfInterest start post : Nat)

/-- A friend of a friend, but no friend, with a birthday on or after the 21st of the month and before
the 22nd of the next. -/
def BornAround (start : VertexId) (month : UInt32) (v : VertexId) : Prop :=
  (v ≠ start ∧ g.toOpen.Within2 start v ∧ v ∉ g.toOpen.knowsNeighbors start) ∧
    ∃ person, g.person v = some person ∧ birthdayInMonthDayRange person.birthday month = some true

/-- The answer of `ic10`. -/
def InterestRows (start : VertexId) (month : UInt32) : Nat → List Ic10Row → Prop :=
  TopRows
    (fun v => g.toOpen.outNeighborsCached start .hasInterest ≠ [] ∧ g.BornAround start month v)
    (fun v => scoreIdKey (g.interestScore start v) (g.personOf v).id)
    (fun v =>
      { personId := (g.personOf v).id
        personFirstName := (g.personOf v).firstName
        personLastName := (g.personOf v).lastName
        commonInterestScore := g.interestScore start v
        personGender := (g.personOf v).gender
        personCityName := g.toOpen.personCityName v })

variable {g}

/-- The sign of a post is counted twice for and once against. -/
theorem score_eq_interestScore (start v : VertexId) :
    2 * (((g.toOpen.inPostsCreators v).filter fun post => (g.toOpen.hasTagNeighbors post).any
        (· ∈ g.toOpen.outNeighborsCached start .hasInterest)).length : Int) -
      (g.toOpen.inPostsCreators v).length = g.interestScore start v := by
  have hcommon : ((g.toOpen.inPostsCreators v).filter fun post => (g.toOpen.hasTagNeighbors post).any
      (· ∈ g.toOpen.outNeighborsCached start .hasInterest)).length =
        (g.toOpen.inPostsCreators v).countP fun post => g.OfInterest start post := by
    rw [List.countP_eq_length_filter]
    refine congrArg List.length (List.filter_congr fun post _ => ?_)
    rw [Bool.eq_iff_iff, List.any_eq_true, decide_eq_true_iff]
    simp only [decide_eq_true_iff, OfInterest]
  have htotal := List.length_eq_countP_add_countP (fun post => decide (g.OfInterest start post))
    (l := g.toOpen.inPostsCreators v)
  simp only [decide_eq_true_eq] at htotal
  rw [hcommon, interestScore]
  simp only [decide_not] at htotal ⊢
  omega

/-- What the loop makes of a friend of a friend. -/
theorem ic10Candidate_spec (start : VertexId) (month : UInt32) (v : VertexId) :
    ∃ c, g.ic10Candidate (g.toOpen.outNeighborsCached start .hasInterest) month v = some c ∧
      ∀ c', c = some c' ↔ ∃ person, g.person v = some person ∧
        birthdayInMonthDayRange person.birthday month = some true ∧
        c' = ⟨g.interestScore start v, person.id, v⟩ := by
  rw [ic10Candidate]
  cases hperson : g.person v with
  | none => exact ⟨none, rfl, fun c' => iff_of_false nofun nofun⟩
  | some person =>
      obtain ⟨b, hb⟩ := Option.ne_none_iff_exists'.mp
        (birthdayInMonthDayRange_ne_none person.birthday month)
      cases b with
      | false =>
          refine ⟨none, by simp [hb], fun c' => iff_of_false nofun ?_⟩
          rintro ⟨person', heq, htrue, -⟩
          cases heq
          cases hb.symm.trans htrue
      | true =>
          refine ⟨some ⟨g.interestScore start v, person.id, v⟩, ?_, fun c' => ?_⟩
          · simp only [hb, Option.bind_eq_bind, Option.bind_some, if_true]
            rw [score_eq_interestScore]
          · simp only [Option.some.injEq, exists_eq_left', hb, true_and, eq_comm]

/-- Person 0 likes the tag `lean`, and knows person 1, who knows person 2, born on 1970-01-25. Person 2
wrote post 10 with the tag. The class of the tag is `logic`, a subclass of which the search takes from
`science`; the comment 20 of person 1 replies to the post. -/
def friendOfFriend : StoredGraph where
  edgeProps _ := none
  adjacency key := List.lookup key
    [ ((encodeVid .person 0, EdgeLabel.knows.asI32), [encodeVid .person 1]),
      ((encodeVid .person 1, EdgeLabel.knows.asI32), [encodeVid .person 0, encodeVid .person 2]),
      ((encodeVid .person 2, EdgeLabel.knows.asI32), [encodeVid .person 1]),
      ((encodeVid .person 0, EdgeLabel.hasInterest.asI32), [encodeVid .tag 1]),
      ((encodeVid .person 2, -EdgeLabel.hasCreator.asI32), [encodeVid .post 10]),
      ((encodeVid .person 1, -EdgeLabel.hasCreator.asI32), [encodeVid .comment 20]),
      ((encodeVid .comment 20, EdgeLabel.replyOfPost.asI32), [encodeVid .post 10]),
      ((encodeVid .post 10, EdgeLabel.hasTag.asI32), [encodeVid .tag 1]),
      ((encodeVid .tag 1, EdgeLabel.hasType.asI32), [encodeVid .tagClass 2]),
      ((encodeVid .tagClass 1, -EdgeLabel.isSubclassOf.asI32), [encodeVid .tagClass 2]) ]
  vertices := Stored.loadVertices <| List.map (fun data => ⟨Stored.VertexData.vid data, data⟩)
    [.person ⟨⟨0, "", "", "", 0, 0, "", "", "", ""⟩, 9⟩,
      .person ⟨⟨1, "", "", "", 0, 0, "", "", "", ""⟩, 9⟩,
      .person ⟨⟨2, "", "", "", 24 * 86400000, 0, "", "", "", ""⟩, 9⟩, .tag ⟨1, "lean", 2⟩,
      .tagClass ⟨1, "science", none⟩, .tagClass ⟨2, "logic", some 1⟩,
      .post ⟨⟨10, "", 5, ""⟩, "", "", "", 0, 2, 3, 1⟩,
      .comment ⟨⟨20, 5, ""⟩, "", "", 0, 1, 2, some 10, none⟩]

structure Ic12Row where
  personId : Int64
  personFirstName : String
  personLastName : String
  tagNames : List String
  replyCount : Nat
  deriving DecidableEq, Repr

structure Ic12Candidate where
  count : Nat
  personId : Int64
  friend : VertexId
  tagNames : List String

variable (g : StoredGraph)

/-- The tag classes with this name. -/
def TagClassNamed (name : String) (vid : VertexId) : Prop :=
  ∃ tagClass, g.tagClass vid = some tagClass ∧ tagClass.name = name

def findTagClassVid (o : IterationOrder) (name : String) : Option VertexId :=
  (g.verticesByLabel o .tagClass).find? fun vid =>
    match g.tagClass vid with
    | some tagClass => tagClass.name = name
    | none => false

/-- The tags with a type among these classes. -/
def tagsOfClasses (o : IterationOrder) (classes : Finset VertexId) : Finset VertexId :=
  ((g.verticesByLabel o .tag).filter fun tagVid =>
    (g.toOpen.outNeighborsCached tagVid .hasType).any (· ∈ classes)).toFinset

/-- The tags of the post that a comment replies to, as far as they are in the set. -/
def matchedTags (tagSet : Finset VertexId) (msg : VertexId) : List VertexId :=
  if g.toOpen.comment msg = none then []
  else
    match (g.toOpen.outNeighborsCached msg .replyOfPost).head? with
    | none => []
    | some postVid => (g.toOpen.hasTagNeighbors postVid).filter (· ∈ tagSet)

/-- The body of the loop over the messages of a friend. -/
def ic12Message (tagSet : Finset VertexId) (acc : Nat × Finset String) (msg : VertexId) :
    Nat × Finset String :=
  let tags := g.matchedTags tagSet msg
  (if tags = [] then acc.1 else acc.1 + 1,
    acc.2 ∪ (tags.filterMap fun tagVid => (g.tag tagVid).map Stored.TagProps.name).toFinset)

def ic12Candidate (tagSet : Finset VertexId) (friend : VertexId) : Option Ic12Candidate :=
  (g.person friend).bind fun person =>
    let (count, names) := (g.toOpen.inMessagesCreators friend).foldl (g.ic12Message tagSet) (0, ∅)
    if 0 < count then some ⟨count, person.id, friend, (names.sort (· ≤ ·)).reverse⟩ else none

def ic12Row (c : Ic12Candidate) : Option Ic12Row :=
  (g.person c.friend).map fun person => ⟨person.id, person.firstName, person.lastName, c.tagNames, c.count⟩

/-- `none` is a panic, or a search for classes that is out of fuel. -/
def ic12 (fuel : Nat) (o : IterationOrder) (personId : Int64) (tagClassName : String) (limit : Nat) :
    Option (List Ic12Row) :=
  let start := encodeVid .person personId
  if g.person start = none then some []
  else
    match g.findTagClassVid o tagClassName with
    | none => some []
    | some root => do
        let ancestors ← g.toOpen.tagClassAncestorsLikeDgs fuel root
        let tagSet := g.tagsOfClasses o ancestors
        if tagSet = ∅ then some []
        else
          let rows := (g.toOpen.knowsNeighbors start).filterMap (g.ic12Candidate tagSet)
          ((sortByKey (fun c : Ic12Candidate => countIdKey c.count c.personId) rows).take limit).mapM
            g.ic12Row

/-- A tag of the class `root`, or of a class below it. -/
def OfClass (root tagVid : VertexId) : Prop :=
  g.toOpen.vertexLabel tagVid = some .tag ∧
    ∃ tagClass ∈ g.toOpen.outNeighborsCached tagVid .hasType, Relation.ReflTransGen
      (fun tc below => below ∈ g.toOpen.inNeighborsCached tc .isSubclassOf) root tagClass

/-- The message is a comment, and the post that it replies to has the tag, which is of the class. -/
def RepliesAbout (root msg tagVid : VertexId) : Prop :=
  g.toOpen.comment msg ≠ none ∧
    ∃ postVid ∈ (g.toOpen.outNeighborsCached msg .replyOfPost).head?,
      tagVid ∈ g.toOpen.hasTagNeighbors postVid ∧ g.OfClass root tagVid

open Classical in
/-- The replies of a person to posts with a tag of the class. -/
noncomputable def classReplies (root v : VertexId) : Nat :=
  (g.toOpen.inMessagesCreators v).countP fun msg => ∃ tagVid, g.RepliesAbout root msg tagVid

/-- The names of the tags that they are about. -/
def classNames (root v : VertexId) : Set String :=
  {name | ∃ msg ∈ g.toOpen.inMessagesCreators v, ∃ tagVid,
    g.RepliesAbout root msg tagVid ∧ g.TagNamed name tagVid}

open Classical in
/-- The members of a finite set, the greatest first. -/
noncomputable def descending (s : Set String) : List String :=
  if h : s.Finite then (h.toFinset.sort (· ≤ ·)).reverse else []

/-- The answer of `ic12` for the class `root`. -/
def ClassRows (start : VertexId) (limit : Nat) (root : VertexId) (rows : List Ic12Row) : Prop :=
  TopRows
    (fun v => v ∈ g.toOpen.knowsNeighbors start ∧ g.person v ≠ none ∧ 0 < g.classReplies root v)
    (fun v => countIdKey (g.classReplies root v) (g.personOf v).id)
    (fun v => ⟨(g.personOf v).id, (g.personOf v).firstName, (g.personOf v).lastName,
      descending (g.classNames root v), g.classReplies root v⟩) limit rows

variable {g}

theorem descending_coe (s : Finset String) : descending (s : Set String) = (s.sort (· ≤ ·)).reverse := by
  rw [descending, dif_pos s.finite_toSet, Finset.finite_toSet_toFinset]

theorem findTagClassVid_eq {o : IterationOrder} {name : String} :
    (∀ vid, g.findTagClassVid o name = some vid → g.TagClassNamed name vid) ∧
      (g.findTagClassVid o name = none → ∀ vid, ¬g.TagClassNamed name vid) := by
  let p (vid : VertexId) : Bool :=
    match g.tagClass vid with
    | some tagClass => tagClass.name = name
    | none => false
  have hnamed : ∀ vid, p vid = true ↔ g.TagClassNamed name vid := by
    intro vid
    simp only [p, TagClassNamed]
    cases g.tagClass vid <;> simp
  obtain ⟨hsome, hnone⟩ := @find?_verticesByLabel g o .tagClass p fun vid hvid => by
    obtain ⟨tagClass, hget, -⟩ := (hnamed vid).mp hvid
    rw [StoredGraph.tagClass] at hget
    split at hget
    · rename_i heq
      rw [vertexLabel_toOpen, heq]
      rfl
    · cases hget
  exact ⟨fun vid hfind => (hnamed vid).mp (hsome vid hfind),
    fun hfind vid => mt (hnamed vid).mpr (hnone hfind vid)⟩

/-- The tags of the classes that the search finds. -/
theorem mem_tagsOfClasses {o : IterationOrder} {root : VertexId} {ancestors : Finset VertexId}
    (hancestors : ∀ v, v ∈ ancestors ↔ Relation.ReflTransGen
      (fun tc below => below ∈ g.toOpen.inNeighborsCached tc .isSubclassOf) root v) (tagVid : VertexId) :
    tagVid ∈ g.tagsOfClasses o ancestors ↔ g.OfClass root tagVid := by
  rw [tagsOfClasses, List.mem_toFinset, List.mem_filter, mem_verticesByLabel, List.any_eq_true, OfClass]
  simp only [decide_eq_true_iff, hancestors]

theorem mem_matchedTags {root : VertexId} {tagSet : Finset VertexId}
    (htags : ∀ tagVid, tagVid ∈ tagSet ↔ g.OfClass root tagVid) (msg tagVid : VertexId) :
    tagVid ∈ g.matchedTags tagSet msg ↔ g.RepliesAbout root msg tagVid := by
  rw [matchedTags, RepliesAbout]
  by_cases hcomment : g.toOpen.comment msg = none
  · rw [if_pos hcomment]
    exact iff_of_false List.not_mem_nil fun h => h.1 hcomment
  · rw [if_neg hcomment, and_iff_right hcomment]
    cases (g.toOpen.outNeighborsCached msg .replyOfPost).head? with
    | none => simp
    | some postVid => simp [htags]

/-- What the loop over the messages has counted and collected. -/
theorem foldl_ic12Message (tagSet : Finset VertexId) (msgs : List VertexId) (acc : Nat × Finset String) :
    msgs.foldl (g.ic12Message tagSet) acc =
      (acc.1 + msgs.countP (fun msg => g.matchedTags tagSet msg ≠ []),
        acc.2 ∪ ((msgs.flatMap (g.matchedTags tagSet)).filterMap fun tagVid =>
          (g.tag tagVid).map Stored.TagProps.name).toFinset) := by
  induction msgs generalizing acc with
  | nil => simp
  | cons msg msgs ih =>
      rw [List.foldl_cons, ih, ic12Message, List.countP_cons, List.flatMap_cons, List.filterMap_append,
        List.toFinset_append, Finset.union_assoc]
      by_cases hnone : g.matchedTags tagSet msg = []
      · simp [hnone]
      · simp [hnone, Nat.add_assoc, Nat.add_comm 1]

/-- The loop counts the replies to posts with a tag of the class, and collects the names of the tags. -/
theorem foldl_ic12Message_spec {root : VertexId} {tagSet : Finset VertexId}
    (htags : ∀ tagVid, tagVid ∈ tagSet ↔ g.OfClass root tagVid) (v : VertexId) :
    ∃ names : Finset String, (g.toOpen.inMessagesCreators v).foldl (g.ic12Message tagSet) (0, ∅) =
      (g.classReplies root v, names) ∧ (names : Set String) = g.classNames root v := by
  classical
  rw [foldl_ic12Message]
  refine ⟨_, Prod.ext ?_ rfl, Set.ext fun name => ?_⟩
  · rw [Nat.zero_add, classReplies]
    refine List.countP_congr fun msg _ => ?_
    rw [decide_eq_true_iff, decide_eq_true_iff]
    have hmem : (∃ tagVid, g.RepliesAbout root msg tagVid) ↔
        ∃ tagVid, tagVid ∈ g.matchedTags tagSet msg :=
      exists_congr fun tagVid => (mem_matchedTags htags msg tagVid).symm
    rw [hmem]
    exact ⟨List.exists_mem_of_ne_nil _, fun ⟨_, htag⟩ => List.ne_nil_of_mem htag⟩
  · rw [Finset.empty_union, Finset.mem_coe, List.mem_toFinset, List.mem_filterMap]
    simp only [List.mem_flatMap, mem_matchedTags htags, Option.map_eq_some_iff]
    constructor
    · rintro ⟨tagVid, ⟨msg, hmsg, habout⟩, hname⟩
      exact ⟨msg, hmsg, tagVid, habout, hname⟩
    · rintro ⟨msg, hmsg, tagVid, habout, hname⟩
      exact ⟨tagVid, ⟨msg, hmsg, habout⟩, hname⟩

/-- What the loop over the friends makes of one. -/
theorem ic12Candidate_eq_some {root : VertexId} {tagSet : Finset VertexId}
    (htags : ∀ tagVid, tagVid ∈ tagSet ↔ g.OfClass root tagVid) (v : VertexId) (c : Ic12Candidate) :
    g.ic12Candidate tagSet v = some c ↔ ∃ person, g.person v = some person ∧
      0 < g.classReplies root v ∧
      c = ⟨g.classReplies root v, person.id, v, descending (g.classNames root v)⟩ := by
  obtain ⟨names, hfold, hnames⟩ := foldl_ic12Message_spec htags v
  rw [ic12Candidate, Option.bind_eq_some_iff]
  simp only [hfold, ← hnames, descending_coe]
  refine exists_congr fun person => and_congr_right fun _ => ?_
  split
  · rename_i hpos
    rw [and_iff_right hpos, Option.some.injEq, eq_comm]
  · rename_i hzero
    exact iff_of_false nofun fun h => hzero h.1

/-- The answer for the class that the search found. -/
theorem ic12_found (g : StoredGraph) (o : IterationOrder) {personId : Int64}
    (hperson : g.person (encodeVid .person personId) ≠ none) (hnodup : NoDuplicates g.adjacency)
    {tagClassName : String} {root : VertexId} (hfind : g.findTagClassVid o tagClassName = some root)
    (limit : Nat) :
    ∃ answer, (∃ n, ∀ fuel, n < fuel → g.ic12 fuel o personId tagClassName limit = some answer) ∧
      g.ClassRows (encodeVid .person personId) limit root answer := by
  let start := encodeVid .person personId
  obtain ⟨ancestors, ⟨n, hn⟩, hancestors⟩ := g.toOpen.tagClassAncestors_spec root
  let tagSet := g.tagsOfClasses o ancestors
  have htags : ∀ tagVid, tagVid ∈ tagSet ↔ g.OfClass root tagVid := mem_tagsOfClasses hancestors
  have hcand := ic12Candidate_eq_some htags
  let row (c : Ic12Candidate) : Ic12Row :=
    ⟨(g.personOf c.friend).id, (g.personOf c.friend).firstName, (g.personOf c.friend).lastName,
      c.tagNames, c.count⟩
  let rows := (g.toOpen.knowsNeighbors start).filterMap (g.ic12Candidate tagSet)
  let top := (sortByKey (fun c : Ic12Candidate => countIdKey c.count c.personId) rows).take limit
  have hrows : g.ClassRows start limit root (top.map row) := by
    refine topRows_filterMap (hnodup _) Ic12Candidate.friend (fun v c hc => ?_) (fun v => ?_)
      (fun v _ c hc => ?_) limit
    · obtain ⟨person, -, -, rfl⟩ := (hcand v c).mp hc
      rfl
    · refine and_congr_right fun _ => ?_
      rw [Option.ne_none_iff_exists', Option.ne_none_iff_exists']
      constructor
      · rintro ⟨⟨person, hp⟩, hpos⟩
        exact ⟨_, (hcand v _).mpr ⟨person, hp, hpos, rfl⟩⟩
      · rintro ⟨c, hc⟩
        obtain ⟨person, hp, hpos, -⟩ := (hcand v c).mp hc
        exact ⟨⟨person, hp⟩, hpos⟩
    · obtain ⟨person, hp, -, rfl⟩ := (hcand v c).mp hc
      rw [personOf_eq hp]
      exact ⟨rfl, by simp only [row, personOf_eq hp]⟩
  have hunwrap : top.mapM g.ic12Row = some (top.map row) := by
    refine mapM_eq_some_map fun c hc => ?_
    obtain ⟨v, -, hv⟩ := List.mem_filterMap.mp (mem_sortByKey.mp (List.mem_of_mem_take hc))
    obtain ⟨person, hp, -, rfl⟩ := (hcand v c).mp hv
    simp only [ic12Row, row, hp, personOf_eq hp]
    rfl
  refine ⟨top.map row, ⟨n, fun fuel hfuel => ?_⟩, hrows⟩
  rw [ic12, if_neg hperson]
  simp only [hfind, hn fuel hfuel, Option.bind_eq_bind, Option.bind_some]
  split
  · -- without a tag of the class there are no replies to count
    rename_i hempty
    have hnone : top = [] := by
      classical
      rw [List.eq_nil_iff_forall_not_mem]
      intro c hc
      obtain ⟨v, -, hv⟩ := List.mem_filterMap.mp (mem_sortByKey.mp (List.mem_of_mem_take hc))
      obtain ⟨-, -, hpos, -⟩ := (hcand v c).mp hv
      rw [classReplies, List.countP_pos_iff] at hpos
      obtain ⟨msg, -, habout⟩ := hpos
      rw [decide_eq_true_iff] at habout
      obtain ⟨tagVid, -, -, -, -, hclass⟩ := habout
      exact Finset.notMem_empty tagVid (hempty ▸ (htags tagVid).mpr hclass)
    rw [hnone]
    rfl
  · exact hunwrap

/-- **IC12.** The search for the classes ends and no unwrap fails. The answer is one for some class of
that name, or empty if there is none: the friends who reply to posts about the class, those with the
most replies first, with the names of the tags. If the name is unique it is the only such answer. -/
theorem ic12_spec (g : StoredGraph) (o : IterationOrder) {personId : Int64}
    (hperson : g.person (encodeVid .person personId) ≠ none) (hnodup : NoDuplicates g.adjacency)
    (tagClassName : String) (limit : Nat) :
    let start := encodeVid .person personId
    ∃ answer, (∃ n, ∀ fuel, n < fuel → g.ic12 fuel o personId tagClassName limit = some answer) ∧
      ((∀ root, ¬g.TagClassNamed tagClassName root) → answer = []) ∧
      ((∃ root, g.TagClassNamed tagClassName root) →
        ∃ root, g.TagClassNamed tagClassName root ∧ g.ClassRows start limit root answer) ∧
      (Stored.WellKeyed g.vertices → ∀ root, g.TagClassNamed tagClassName root →
        (∀ other, g.TagClassNamed tagClassName other → other = root) →
          ∀ rows, g.ClassRows start limit root rows ↔ answer = rows) := by
  intro start
  obtain ⟨hsome, hnone⟩ := @findTagClassVid_eq g o tagClassName
  cases hfind : g.findTagClassVid o tagClassName with
  | none =>
      refine ⟨[], ⟨0, fun fuel _ => ?_⟩, fun _ => rfl, fun ⟨root, hroot⟩ => ?_, fun _ root hroot => ?_⟩
      · rw [ic12, if_neg hperson]
        simp only [hfind]
      · exact absurd hroot (hnone hfind root)
      · exact absurd hroot (hnone hfind root)
  | some found =>
      obtain ⟨answer, hruns, hrows⟩ := ic12_found g o hperson hnodup hfind limit
      have hnamed := hsome found hfind
      refine ⟨answer, hruns, fun hno => absurd hnamed (hno found), fun _ => ⟨found, hnamed, hrows⟩,
        fun hkeys root hroot hunique rows => ?_⟩
      cases hunique found hnamed
      refine ⟨fun h => TopRows.unique hrows h fun a b ha hb hkey => ?_, fun h => h ▸ hrows⟩
      have hsame : a = b := eq_of_personOf_id_eq hkeys ha.2.1 hb.2.1 (countIdKey_inj hkey).2
      rw [hsame]

theorem noDuplicates_lookup {entries : List (AdjacencyKey × List VertexId)}
    (h : ∀ entry ∈ entries, entry.2.Nodup) : NoDuplicates fun key => entries.lookup key := by
  intro key
  change ((entries.lookup key).getD []).Nodup
  cases hlookup : entries.lookup key with
  | none => exact List.nodup_nil
  | some dsts =>
      obtain ⟨l₁, l₂, rfl, -⟩ := List.lookup_eq_some_iff.mp hlookup
      exact h (key, dsts) (by simp)

theorem ic12_spec_friendOfFriend :
    ∃ answer, (∃ n, ∀ fuel, n < fuel →
        friendOfFriend.ic12 fuel inInsertionOrder 0 "science" 5 = some answer) ∧
      ∃ root, friendOfFriend.TagClassNamed "science" root ∧
        friendOfFriend.ClassRows (encodeVid .person 0) 5 root answer := by
  obtain ⟨answer, hruns, -, hfound, -⟩ := ic12_spec friendOfFriend inInsertionOrder
    (show friendOfFriend.person (encodeVid .person 0) ≠ none by decide +kernel)
    (noDuplicates_lookup (by decide +kernel)) "science" 5
  exact ⟨answer, hruns, hfound ⟨encodeVid .tagClass 1, ⟨1, "science", none⟩, by decide +kernel, rfl⟩⟩

example : friendOfFriend.ic12 5 inInsertionOrder 0 "science" 5 = some [⟨1, "", "", ["lean"], 1⟩] := by
  decide +kernel

/-! ## IC11 -/

structure Ic11Row where
  personId : Int64
  personFirstName : String
  personLastName : String
  organizationName : String
  organizationWorkFromYear : Int32
  deriving DecidableEq, Repr

structure Ic11Candidate where
  workFrom : Int32
  personId : Int64
  orgName : String
  friend : VertexId
  orgVid : VertexId

/-- The earliest year first, then the least id, then the greatest name. -/
def workKey (workFrom : Int32) (id : Int64) (orgName : String) : Int32 ×ₗ Int64 ×ₗ Stringᵒᵈ :=
  toLex (workFrom, toLex (id, OrderDual.toDual orgName))

variable (g : StoredGraph)

def outEdgesWithProp (vid : VertexId) (edgeLabel : EdgeLabel) : List (VertexId × EdgeProp) :=
  (g.toOpen.outNeighborsCached vid edgeLabel).map fun dst =>
    (dst, g.edgePropByType vid edgeLabel.asI32 dst)

def orgName (orgVid : VertexId) : String := ((g.toOpen.organisation orgVid).map OrgProps.name).getD ""

/-- The body of the loop over the employers of a friend. -/
def ic11Candidate (countryName : String) (workFromYear : Int32) (friend : VertexId)
    (person : PersonProps) (employer : VertexId × EdgeProp) : Option Ic11Candidate :=
  let workFrom := employer.2.asI32
  if workFrom ≥ workFromYear then none
  else if !((g.toOpen.outNeighborsCached employer.1 .isLocatedIn).any fun place =>
      g.toOpen.placeName place = countryName) then none
  else some ⟨workFrom, person.id, g.orgName employer.1, friend, employer.1⟩

def ic11Friend (countryName : String) (workFromYear : Int32) (friend : VertexId) : List Ic11Candidate :=
  match g.person friend with
  | none => []
  | some person => (g.outEdgesWithProp friend .workAt).filterMap
      (g.ic11Candidate countryName workFromYear friend person)

def ic11Row (c : Ic11Candidate) : Option Ic11Row :=
  (g.person c.friend).map fun person =>
    ⟨person.id, person.firstName, person.lastName, c.orgName, c.workFrom⟩

/-- `none` is a panic. -/
def ic11 (o : IterationOrder) (personId : Int64) (countryName : String) (workFromYear : Int32)
    (limit : Nat) : Option (List Ic11Row) :=
  let start := encodeVid .person personId
  if g.person start = none then some []
  else
    let rows := (g.toOpen.knowsBfs2hop o start).flatMap (g.ic11Friend countryName workFromYear)
    ((sortByKey (fun c : Ic11Candidate => workKey c.workFrom c.personId c.orgName) rows).take
      limit).mapM g.ic11Row

def workFrom (friend orgVid : VertexId) : Int32 :=
  (g.edgePropByType friend EdgeLabel.workAt.asI32 orgVid).asI32

/-- The answer of `ic11`: a row for every employer, in the country and from before the year, of every
friend and friend of a friend. -/
def EmployerRows (start : VertexId) (countryName : String) (workFromYear : Int32) :
    Nat → List Ic11Row → Prop :=
  TopRows
    (fun e : VertexId × VertexId => (e.1 ≠ start ∧ g.toOpen.Within2 start e.1) ∧
      g.person e.1 ≠ none ∧ e.2 ∈ g.toOpen.outNeighborsCached e.1 .workAt ∧
      g.workFrom e.1 e.2 < workFromYear ∧
      ∃ place ∈ g.toOpen.outNeighborsCached e.2 .isLocatedIn, g.toOpen.placeName place = countryName)
    (fun e => workKey (g.workFrom e.1 e.2) (g.personOf e.1).id (g.orgName e.2))
    (fun e => ⟨(g.personOf e.1).id, (g.personOf e.1).firstName, (g.personOf e.1).lastName,
      g.orgName e.2, g.workFrom e.1 e.2⟩)

variable {g}

/-- A member of the list for a friend. -/
theorem mem_ic11Friend {countryName : String} {workFromYear : Int32} {friend : VertexId}
    {c : Ic11Candidate} :
    c ∈ g.ic11Friend countryName workFromYear friend ↔ ∃ person, g.person friend = some person ∧
      ∃ orgVid ∈ g.toOpen.outNeighborsCached friend .workAt,
        g.workFrom friend orgVid < workFromYear ∧
        (∃ place ∈ g.toOpen.outNeighborsCached orgVid .isLocatedIn,
          g.toOpen.placeName place = countryName) ∧
        c = ⟨g.workFrom friend orgVid, person.id, g.orgName orgVid, friend, orgVid⟩ := by
  rw [ic11Friend]
  cases g.person friend with
  | none => exact iff_of_false List.not_mem_nil nofun
  | some person =>
      rw [List.mem_filterMap, outEdgesWithProp]
      simp only [List.mem_map, Option.some.injEq, exists_eq_left']
      constructor
      · rintro ⟨-, ⟨orgVid, horg, rfl⟩, hc⟩
        rw [ic11Candidate] at hc
        dsimp only at hc
        split at hc
        · cases hc
        · rename_i hyear
          split at hc
          · cases hc
          · rename_i hcountry
            refine ⟨orgVid, horg, Int32.not_le.mp hyear, ?_, (Option.some.inj hc).symm⟩
            simpa using hcountry
      · rintro ⟨orgVid, horg, hyear, hcountry, rfl⟩
        refine ⟨_, ⟨orgVid, horg, rfl⟩, ?_⟩
        exact (if_neg (Int32.not_le.mpr hyear)).trans (if_neg (by simpa using hcountry))

theorem friend_of_mem_ic11Friend {countryName : String} {workFromYear : Int32} {friend : VertexId}
    {c : Ic11Candidate} (h : c ∈ g.ic11Friend countryName workFromYear friend) : c.friend = friend := by
  obtain ⟨-, -, -, -, -, -, rfl⟩ := mem_ic11Friend.mp h
  rfl

/-- The employers for whom a friend has a row are distinct. -/
theorem nodup_ic11Friend (hnodup : NoDuplicates g.adjacency) (countryName : String)
    (workFromYear : Int32) (friend : VertexId) :
    ((g.ic11Friend countryName workFromYear friend).map Ic11Candidate.orgVid).Nodup := by
  rw [ic11Friend]
  cases g.person friend with
  | none => exact List.nodup_nil
  | some person =>
      have hcand : ∀ (employer : VertexId × EdgeProp), ∀ orgVid ∈
          (g.ic11Candidate countryName workFromYear friend person employer).map Ic11Candidate.orgVid,
          orgVid = employer.1 := by
        intro employer orgVid h
        obtain ⟨c, hc, rfl⟩ := Option.map_eq_some_iff.mp h
        rw [ic11Candidate] at hc
        split at hc
        · cases hc
        · split at hc
          · cases hc
          · cases hc
            rfl
      have hemployers : (g.toOpen.outNeighborsCached friend .workAt).Nodup := hnodup _
      rw [List.map_filterMap, outEdgesWithProp, List.filterMap_map]
      refine List.Nodup.filterMap (fun orgVid orgVid' b hb hb' => ?_) hemployers
      exact (hcand _ b hb).symm.trans (hcand _ b hb')

/-- **IC11.** No unwrap fails, and the answer is the employers of friends and their friends in the
country, for whom they worked before the year, those that they joined first at the start; in a well
keyed graph it is the only such answer. -/
theorem ic11_spec (g : StoredGraph) (o : IterationOrder) {personId : Int64}
    (hperson : g.person (encodeVid .person personId) ≠ none) (hnodup : NoDuplicates g.adjacency)
    (countryName : String) (workFromYear : Int32) (limit : Nat) :
    let start := encodeVid .person personId
    ∃ answer, g.ic11 o personId countryName workFromYear limit = some answer ∧
      g.EmployerRows start countryName workFromYear limit answer ∧
      (Stored.WellKeyed g.vertices → ∀ rows,
        g.EmployerRows start countryName workFromYear limit rows → answer = rows) := by
  intro start
  let row (c : Ic11Candidate) : Ic11Row :=
    ⟨(g.personOf c.friend).id, (g.personOf c.friend).firstName, (g.personOf c.friend).lastName,
      c.orgName, c.workFrom⟩
  let friends := g.toOpen.knowsBfs2hop o start
  let rows := friends.flatMap (g.ic11Friend countryName workFromYear)
  have hfriend : ∀ v, v ∈ friends ↔ v ≠ start ∧ g.toOpen.Within2 start v := fun v => by
    rw [← OpenGraph.mem_knowsBfs2hopSet, ← OpenGraph.toFinset_knowsBfs2hop o, List.mem_toFinset]
  have hmem : ∀ c, c ∈ rows ↔ ∃ friend ∈ friends, c ∈ g.ic11Friend countryName workFromYear friend :=
    fun c => List.mem_flatMap
  have hanswer : g.EmployerRows start countryName workFromYear limit (((sortByKey
      (fun c : Ic11Candidate => workKey c.workFrom c.personId c.orgName) rows).take limit).map row) := by
    refine topRows_sortByKey (fun c => (c.friend, c.orgVid)) ?_ (fun e => ?_) (fun c hc => ?_)
      (fun c hc => ?_) limit
    · -- a friend is visited once, and lists an employer once
      rw [List.map_flatMap, List.nodup_flatMap]
      refine ⟨fun friend _ => ?_, (nodup_hashSet o _).imp fun {friend friend'} hne => ?_⟩
      · refine List.Nodup.of_map Prod.snd ?_
        rw [List.map_map]
        exact nodup_ic11Friend hnodup countryName workFromYear friend
      · rw [Function.onFun, List.disjoint_left]
        rintro e he he'
        obtain ⟨c, hc, rfl⟩ := List.mem_map.mp he
        obtain ⟨c', hc', hsame⟩ := List.mem_map.mp he'
        have hfriends : c'.friend = c.friend := congrArg Prod.fst hsame
        rw [friend_of_mem_ic11Friend hc, friend_of_mem_ic11Friend hc'] at hfriends
        exact hne hfriends.symm
    · rw [List.mem_map, ← hfriend]
      constructor
      · rintro ⟨c, hc, rfl⟩
        obtain ⟨friend, hin, hc⟩ := (hmem c).mp hc
        obtain ⟨person, hp, orgVid, horg, hyear, hcountry, rfl⟩ := mem_ic11Friend.mp hc
        exact ⟨hin, hp ▸ Option.some_ne_none person, horg, hyear, hcountry⟩
      · rintro ⟨hin, hp, horg, hyear, hcountry⟩
        obtain ⟨person, hp⟩ := Option.ne_none_iff_exists'.mp hp
        exact ⟨_, (hmem _).mpr ⟨e.1, hin, mem_ic11Friend.mpr ⟨person, hp, e.2, horg, hyear, hcountry,
          rfl⟩⟩, rfl⟩
    · obtain ⟨friend, -, hc⟩ := (hmem c).mp hc
      obtain ⟨person, hp, orgVid, -, -, -, rfl⟩ := mem_ic11Friend.mp hc
      rw [personOf_eq hp]
    · obtain ⟨friend, -, hc⟩ := (hmem c).mp hc
      obtain ⟨person, hp, orgVid, -, -, -, rfl⟩ := mem_ic11Friend.mp hc
      rfl
  refine ⟨_, ?_, hanswer, fun hkeys rows' hrows' => TopRows.unique hanswer hrows' fun a b ha hb hkey => ?_⟩
  · rw [ic11, if_neg hperson]
    refine mapM_eq_some_map fun c hc => ?_
    obtain ⟨friend, -, hc⟩ := (hmem c).mp (mem_sortByKey.mp (List.mem_of_mem_take hc))
    obtain ⟨person, hp, orgVid, -, -, -, rfl⟩ := mem_ic11Friend.mp hc
    simp only [ic11Row, row, hp, personOf_eq hp]
    rfl
  · -- one key gives one person, one year and one name, though perhaps two employers
    obtain ⟨hfrom, hrest⟩ := Prod.ext_iff.mp (toLex.injective hkey)
    obtain ⟨hid, hname⟩ := Prod.ext_iff.mp (toLex.injective hrest)
    have hsame : a.1 = b.1 := eq_of_personOf_id_eq hkeys ha.2.1 hb.2.1 hid
    have hname : g.orgName a.2 = g.orgName b.2 := OrderDual.toDual.injective hname
    dsimp only at hfrom
    rw [hsame, hname, ← hsame, hfrom, hsame]

/-- Person 1, whom person 0 knows, worked for `a` and `b`, both in the one country. -/
def twoEmployers : StoredGraph where
  edgeProps edge :=
    List.lookup edge
      [ ((encodeVid .person 1, EdgeLabel.workAt.asI32, encodeVid .organisation 1), .i32 2004),
        ((encodeVid .person 1, EdgeLabel.workAt.asI32, encodeVid .organisation 2), .i32 2004) ]
  adjacency key := List.lookup key
    [ ((encodeVid .person 0, EdgeLabel.knows.asI32), [encodeVid .person 1]),
      ((encodeVid .person 1, EdgeLabel.workAt.asI32),
        [encodeVid .organisation 1, encodeVid .organisation 2]),
      ((encodeVid .organisation 1, EdgeLabel.isLocatedIn.asI32), [encodeVid .place 3]),
      ((encodeVid .organisation 2, EdgeLabel.isLocatedIn.asI32), [encodeVid .place 3]) ]
  vertices := Stored.loadVertices <| List.map (fun data => ⟨Stored.VertexData.vid data, data⟩)
    [.person ⟨⟨0, "", "", "", 0, 0, "", "", "", ""⟩, 9⟩,
      .person ⟨⟨1, "", "", "", 0, 0, "", "", "", ""⟩, 9⟩, .place ⟨⟨3, "here"⟩, "country", none⟩,
      .organisation ⟨⟨1, "a"⟩, "company", 3⟩, .organisation ⟨⟨2, "b"⟩, "company", 3⟩]

theorem ic11_spec_twoEmployers :
    twoEmployers.EmployerRows (encodeVid .person 0) "here" 2005 5
      [⟨1, "", "", "b", 2004⟩, ⟨1, "", "", "a", 2004⟩] := by
  obtain ⟨answer, hanswer, hrows, -⟩ := ic11_spec twoEmployers inInsertionOrder
    (show twoEmployers.person (encodeVid .person 0) ≠ none by decide +kernel)
    (noDuplicates_lookup (by decide +kernel)) "here" 2005 5
  have hruns : twoEmployers.ic11 inInsertionOrder 0 "here" 2005 5 =
      some [⟨1, "", "", "b", 2004⟩, ⟨1, "", "", "a", 2004⟩] := by decide +kernel
  cases hanswer.symm.trans hruns
  exact hrows

end StoredGraph

end LsmGraph
