import LsmGraph.Snb.ShortestPath
import Mathlib.Data.Prod.Lex
import Mathlib.Data.String.Basic

/-! # IC1: persons of one first name near a person

`ic1` searches the Knows neighbourhood level by level, up to three, and stops after the first level
at which it has enough candidates. Its answer is that of the full search (`ic1_eq_reference`):
distance is the first sort key, and marking gives everyone the smallest distance. -/

namespace LsmGraph

open Bfs KeyedSort

structure OrgJson where
  organizationName : String
  year : Int32
  placeName : String
  deriving DecidableEq, Repr

structure Ic1Row where
  friendId : Int64
  friendLastName : String
  distanceFromPerson : Int32
  friendBirthday : Int64
  friendCreationDate : Int64
  friendGender : String
  friendBrowserUsed : String
  friendLocationIp : String
  friendEmails : List String
  friendLanguages : List String
  friendCityName : String
  friendUniversities : List OrgJson
  friendCompanies : List OrgJson
  deriving DecidableEq, Repr

/-- A candidate of `ic1`. -/
structure Ic1Candidate where
  distance : Int32
  lastName : String
  id : Int64
  vid : VertexId
  deriving DecidableEq, Repr

/-- The order of the answer. -/
def Ic1Candidate.key (c : Ic1Candidate) : Int32 ×ₗ String ×ₗ Int64 :=
  toLex (c.distance, toLex (c.lastName, c.id))

def splitList (s : String) : List String :=
  if s = "" then [] else (s.toList.splitOn ';').map String.ofList

namespace OpenGraph

variable (g : OpenGraph)

def personCityName (personVid : VertexId) : String :=
  (((g.outNeighborsCached personVid .isLocatedIn).head?).map g.placeName).getD ""

def orgEntries (personVid : VertexId) (edgeLabel : EdgeLabel) : List OrgJson :=
  let rows := (g.outNeighborsCached personVid edgeLabel).map fun orgVid =>
    { organizationName := ((g.organisation orgVid).map OrgProps.name).getD ""
      year := (g.edgePropByType personVid edgeLabel.asI32 orgVid).asI32
      placeName := (((g.outNeighborsCached orgVid .isLocatedIn).head?).map g.placeName).getD "" }
  if rows = [] then [⟨"", 0, ""⟩] else rows

/-- The row of a person. -/
def ic1Row (distance : Int32) (vid : VertexId) (person : PersonProps) : Ic1Row where
  friendId := person.id
  friendLastName := person.lastName
  distanceFromPerson := distance
  friendBirthday := person.birthday
  friendCreationDate := person.creationDate
  friendGender := person.gender
  friendBrowserUsed := person.browserUsed
  friendLocationIp := person.locationIp
  friendEmails := splitList person.email
  friendLanguages := splitList person.language
  friendCityName := g.personCityName vid
  friendUniversities := g.orgEntries vid .studyAt
  friendCompanies := g.orgEntries vid .workAt

/-- The persons of that name among the vertices of one level. -/
def ic1Level (firstName : String) (distance : Int32) (next : List VertexId) : List Ic1Candidate :=
  next.filterMap fun vid =>
    match g.person vid with
    | none => none
    | some person =>
        if person.firstName = firstName then some ⟨distance, person.lastName, person.id, vid⟩
        else none

/-- The vertices of the next level, after those of `frontier` were marked. -/
def expand (visited frontier : List VertexId) : List VertexId × List VertexId :=
  frontier.foldl (fun s vid => (g.knowsNeighbors vid).foldl mark s) (visited, [])

/-- The loop of `ic1` over the distances. -/
def ic1Search (firstName : String) (limit : Nat) :
    List Int32 → List VertexId → List VertexId → List Ic1Candidate → List Ic1Candidate
  | [], _, _, candidates => candidates
  | distance :: distances, visited, frontier, candidates =>
      let (visited, next) := g.expand visited frontier
      let candidates := candidates ++ g.ic1Level firstName distance next
      if limit ≤ candidates.length then candidates
      else if next = [] then candidates
      else ic1Search firstName limit distances visited next candidates

/-- `ic1`; `none` stands for a failed `unwrap`. -/
def ic1 (personId : Int64) (firstName : String) (limit : Nat) : Option (List Ic1Row) :=
  let start := encodeVid .person personId
  if g.person start = none then some []
  else
    let candidates := g.ic1Search firstName limit [1, 2, 3] [start] [start] []
    ((sortByKey Ic1Candidate.key candidates).take limit).mapM fun c =>
      (g.person c.vid).map (g.ic1Row c.distance c.vid)

/-! ## The full search -/

/-- `l` lists the persons with that first name at a distance above `lo` and up to `hi`. -/
structure ListsNamed (firstName : String) (start : VertexId) (lo hi : Nat)
    (l : List Ic1Candidate) : Prop where
  mem_iff : ∀ c, c ∈ l ↔ ∃ n person, (lo < n ∧ n ≤ hi) ∧ Dist g.knowsNeighbors start n c.vid ∧
    g.person c.vid = some person ∧ person.firstName = firstName ∧
      c = ⟨Int32.ofNat n, person.lastName, person.id, c.vid⟩
  nodup : (l.map Ic1Candidate.vid).Nodup

variable {g} {firstName : String} {start : VertexId} {lo mid hi : Nat} {a b : List Ic1Candidate}

theorem listsNamed_nil : g.ListsNamed firstName start lo lo [] where
  mem_iff c := by
    refine iff_of_false List.not_mem_nil ?_
    rintro ⟨n, person, ⟨hlo, hhi⟩, -⟩
    omega
  nodup := List.nodup_nil

theorem ListsNamed.append (ha : g.ListsNamed firstName start lo mid a)
    (hb : g.ListsNamed firstName start mid hi b) (hlo : lo ≤ mid) (hhi : mid ≤ hi) :
    g.ListsNamed firstName start lo hi (a ++ b) where
  mem_iff c := by
    rw [List.mem_append, ha.mem_iff, hb.mem_iff]
    constructor
    · rintro (⟨n, person, hn, hrest⟩ | ⟨n, person, hn, hrest⟩)
      · exact ⟨n, person, ⟨hn.1, hn.2.trans hhi⟩, hrest⟩
      · exact ⟨n, person, ⟨hlo.trans_lt hn.1, hn.2⟩, hrest⟩
    · rintro ⟨n, person, hn, hrest⟩
      rcases Nat.lt_or_ge mid n with hlt | hle
      · exact Or.inr ⟨n, person, ⟨hlt, hn.2⟩, hrest⟩
      · exact Or.inl ⟨n, person, ⟨hn.1, hle⟩, hrest⟩
  nodup := by
    rw [List.map_append]
    refine List.nodup_append'.mpr ⟨ha.nodup, hb.nodup, fun vid hva hvb => ?_⟩
    obtain ⟨c, hc, rfl⟩ := List.mem_map.mp hva
    obtain ⟨c', hc', heq⟩ := List.mem_map.mp hvb
    obtain ⟨n, -, hn, hdist, -⟩ := (ha.mem_iff c).mp hc
    obtain ⟨n', -, hn', hdist', -⟩ := (hb.mem_iff c').mp hc'
    rw [heq] at hdist'
    have hsame := hdist.unique hdist'
    omega

/-- What one vertex contributes to the candidates. -/
theorem mem_ic1Level {distance : Int32} {next : List VertexId} {c : Ic1Candidate} :
    c ∈ g.ic1Level firstName distance next ↔ c.vid ∈ next ∧ ∃ person,
      g.person c.vid = some person ∧ person.firstName = firstName ∧
        c = ⟨distance, person.lastName, person.id, c.vid⟩ := by
  rw [ic1Level, List.mem_filterMap]
  constructor
  · rintro ⟨vid, hvid, hc⟩
    cases hperson : g.person vid with
    | none =>
        rw [hperson] at hc
        cases hc
    | some person =>
        simp only [hperson, Option.ite_none_right_eq_some, Option.some.injEq] at hc
        obtain ⟨hname, rfl⟩ := hc
        exact ⟨hvid, person, hperson, hname, rfl⟩
  · rintro ⟨hvid, person, hperson, hname, hc⟩
    refine ⟨c.vid, hvid, ?_⟩
    simp only [hperson, if_pos hname]
    exact congrArg some hc.symm

/-- One level of the search lists the persons at its distance. -/
theorem listsNamed_level {d : Nat} {next : List VertexId}
    (hnext : ∀ v, v ∈ next ↔ Dist g.knowsNeighbors start (d + 1) v) (hnodup : next.Nodup) :
    g.ListsNamed firstName start d (d + 1) (g.ic1Level firstName (Int32.ofNat (d + 1)) next) where
  mem_iff c := by
    rw [mem_ic1Level, hnext]
    constructor
    · rintro ⟨hdist, person, hrest⟩
      exact ⟨d + 1, person, ⟨Nat.lt_succ_self d, le_refl _⟩, hdist, hrest⟩
    · rintro ⟨n, person, hn, hdist, hrest⟩
      have heq : n = d + 1 := by omega
      exact heq ▸ ⟨hdist, person, heq ▸ hrest⟩
  nodup := by
    have hvid : ∀ {w e}, (match g.person w with
        | none => none
        | some person =>
            if person.firstName = firstName then
              some (⟨Int32.ofNat (d + 1), person.lastName, person.id, w⟩ : Ic1Candidate)
            else none) = some e → e.vid = w := by
      intro w e he
      split at he
      · cases he
      · obtain ⟨-, he⟩ := Option.ite_none_right_eq_some.mp he
        cases he
        rfl
    refine List.pairwise_map.mpr (List.Pairwise.filterMap _ (fun v v' hne c hc c' hc' heq => ?_) hnodup)
    exact hne (by rw [← hvid hc, ← hvid hc', heq])

/-- A level is explored, and the next one begins. -/
theorem exploring_expand {d : Nat} {frontier visited : List VertexId}
    (h : Exploring g.knowsNeighbors start d frontier [] visited) :
    Exploring g.knowsNeighbors start (d + 1) (g.expand visited frontier).2 []
      (g.expand visited frontier).1 := h.visitAll.nextLevel

theorem mem_expand_iff {d : Nat} {frontier visited : List VertexId}
    (h : Exploring g.knowsNeighbors start d frontier [] visited) (v : VertexId) :
    v ∈ (g.expand visited frontier).2 ↔ Dist g.knowsNeighbors start (d + 1) v :=
  h.visitAll.mem_nxt_of_done

/-- The persons of the next levels can be listed, however the search goes on. -/
theorem exists_listsNamed {d : Nat} {frontier visited : List VertexId}
    (h : Exploring g.knowsNeighbors start d frontier [] visited) (k : Nat) :
    ∃ l, g.ListsNamed firstName start d (d + k) l := by
  induction k generalizing d frontier visited with
  | zero => exact ⟨[], listsNamed_nil⟩
  | succ k ih =>
      have hnext := exploring_expand h
      obtain ⟨l, hl⟩ := ih hnext
      have hsum : d + 1 + k = d + (k + 1) := by omega
      exact ⟨_, (listsNamed_level (mem_expand_iff h) hnext.rest_nodup).append (hsum ▸ hl)
        (Nat.le_succ d) (by omega)⟩

/-- **What the search leaves out** is further away than all it found, and is only left out when
there were enough. -/
theorem ic1Search_spec {limit d k : Nat} {frontier visited : List VertexId}
    (h : Exploring g.knowsNeighbors start d frontier [] visited) (candidates : List Ic1Candidate) :
    ∃ found rest, g.ic1Search firstName limit ((List.range' (d + 1) k).map Int32.ofNat) visited
        frontier candidates = candidates ++ found ∧
      (∃ e, d ≤ e ∧ e ≤ d + k ∧ g.ListsNamed firstName start d e found ∧
        g.ListsNamed firstName start e (d + k) rest) ∧
      (rest = [] ∨ limit ≤ (candidates ++ found).length) := by
  induction k generalizing d frontier visited candidates with
  | zero =>
      exact ⟨[], [], (List.append_nil _).symm, ⟨d, le_refl d, le_refl d, listsNamed_nil,
        listsNamed_nil⟩, Or.inl rfl⟩
  | succ k ih =>
      have hnext := exploring_expand h
      have hlevel : g.ListsNamed firstName start d (d + 1) _ :=
        listsNamed_level (mem_expand_iff h) hnext.rest_nodup
      have hsum : d + 1 + k = d + (k + 1) := by omega
      rw [List.range'_succ, List.map_cons, ic1Search]
      simp only
      split
      · rename_i hlimit
        -- there are enough: the levels that are left out are further away
        obtain ⟨rest, hrest⟩ : ∃ l, g.ListsNamed firstName start (d + 1) (d + 1 + k) l :=
          exists_listsNamed hnext k
        exact ⟨_, rest, rfl, ⟨d + 1, Nat.le_succ d, by omega, hlevel, hsum ▸ hrest⟩, Or.inr hlimit⟩
      · split
        · rename_i hempty
          -- nobody is at this distance, and so nobody is further away
          refine ⟨_, [], rfl, ⟨d + 1, Nat.le_succ d, by omega, hlevel, fun c => ?_,
            List.nodup_nil⟩, Or.inl rfl⟩
          refine iff_of_false List.not_mem_nil ?_
          rintro ⟨n, person, hn, hdist, -⟩
          obtain ⟨u, hu⟩ := hdist.exists_of_le (k := d + 1) (by omega)
          rw [← mem_expand_iff h, hempty] at hu
          exact List.not_mem_nil hu
        · obtain ⟨found, rest, hsearch, ⟨e, hle, hle', hfound, hrest⟩, hstop⟩ :=
            ih hnext (candidates ++ g.ic1Level firstName (Int32.ofNat (d + 1))
              (g.expand visited frontier).2)
          rw [List.append_assoc] at hsearch hstop
          exact ⟨_, rest, hsearch, ⟨e, by omega, by omega, hlevel.append hfound (Nat.le_succ d) hle,
            hsum ▸ hrest⟩, hstop⟩

/-- Nearer candidates come first. -/
theorem key_lt_of_lists (ha : g.ListsNamed firstName start lo mid a)
    (hb : g.ListsNamed firstName start mid hi b) (hsmall : hi < 2 ^ 31) {c c' : Ic1Candidate}
    (hc : c ∈ a) (hc' : c' ∈ b) : c.key < c'.key := by
  obtain ⟨n, person, hn, -, -, -, heq⟩ := (ha.mem_iff c).mp hc
  obtain ⟨n', person', hn', -, -, -, heq'⟩ := (hb.mem_iff c').mp hc'
  rw [heq, heq']
  refine Prod.Lex.lt_iff.mpr (Or.inl (Int32.lt_iff_toInt_lt.mpr ?_))
  change (Int32.ofNat n).toInt < (Int32.ofNat n').toInt
  rw [Int32.toInt_ofNat_of_lt (by omega), Int32.toInt_ofNat_of_lt (by omega)]
  omega

/-- Looking up every element of a list. -/
theorem exists_mapM_eq_some {α β : Type} {f : α → Option β} {l : List α}
    (h : ∀ x ∈ l, ∃ y, f x = some y) :
    ∃ ys, l.mapM f = some ys ∧ List.Forall₂ (fun x y => f x = some y) l ys := by
  induction l with
  | nil => exact ⟨[], rfl, .nil⟩
  | cons x l ih =>
      obtain ⟨y, hy⟩ := h x List.mem_cons_self
      obtain ⟨ys, hys, hall⟩ := ih fun x' hx' => h x' (List.mem_cons_of_mem x hx')
      refine ⟨y :: ys, ?_, .cons hy hall⟩
      rw [List.mapM_cons, hy, hys]
      rfl

/-- **The early exit of IC1 does not change its answer**: it is the beginning of the list of all
persons of that name at distance 1, 2 or 3, in the order of distance, last name and id. -/
theorem ic1_eq_reference (g : OpenGraph) {personId : Int64}
    (hperson : g.person (encodeVid .person personId) ≠ none) (firstName : String) (limit : Nat) :
    ∃ l rows, g.ListsNamed firstName (encodeVid .person personId) 0 3 l ∧
      l.Pairwise (fun c c' => c.key ≤ c'.key) ∧ g.ic1 personId firstName limit = some rows ∧
        List.Forall₂ (fun c row => ∃ person, g.person c.vid = some person ∧
          row = g.ic1Row c.distance c.vid person) (l.take limit) rows := by
  have hstart : Exploring g.knowsNeighbors (encodeVid .person personId) 0 _ [] _ := exploring_start
  have hsearched := @ic1Search_spec g firstName _ limit 0 3 _ _ hstart []
  obtain ⟨found, rest, hsearch, ⟨e, -, he, hfound, hrest⟩, hstop⟩ := hsearched
  have hpermFound := perm_sortByKey Ic1Candidate.key found
  have hpermRest := perm_sortByKey Ic1Candidate.key rest
  have hall := hfound.append hrest (Nat.zero_le e) he
  have hperm := hpermFound.append hpermRest
  -- the candidates left out follow those found
  have htake : (sortByKey Ic1Candidate.key found ++ sortByKey Ic1Candidate.key rest).take limit =
      (sortByKey Ic1Candidate.key found).take limit := by
    rcases hstop with rfl | hlimit
    · rw [show sortByKey Ic1Candidate.key ([] : List Ic1Candidate) = [] from rfl, List.append_nil]
    · exact List.take_append_of_le_length (hpermFound.length_eq ▸ hlimit)
  have hlookup : ∀ c ∈ (sortByKey Ic1Candidate.key found).take limit,
      ∃ row, (g.person c.vid).map (g.ic1Row c.distance c.vid) = some row := by
    intro c hc
    obtain ⟨n, person, -, -, hc', -⟩ :=
      (hfound.mem_iff c).mp (hpermFound.mem_iff.mp (List.mem_of_mem_take hc))
    exact ⟨_, by rw [hc']; rfl⟩
  obtain ⟨rows, hrows, hforall⟩ := exists_mapM_eq_some hlookup
  refine ⟨sortByKey Ic1Candidate.key found ++ sortByKey Ic1Candidate.key rest, rows, ⟨fun c => ?_, ?_⟩,
    ?_, ?_, ?_⟩
  · rw [hperm.mem_iff]
    exact hall.mem_iff c
  · exact (hperm.map _).nodup_iff.mpr hall.nodup
  · refine List.pairwise_append.mpr ⟨pairwise_sortByKey _ _, pairwise_sortByKey _ _, ?_⟩
    intro c hc c' hc'
    exact (key_lt_of_lists hfound hrest (by decide) (hpermFound.mem_iff.mp hc)
      (hpermRest.mem_iff.mp hc')).le
  · have hfinal : g.ic1Search firstName limit [1, 2, 3] [encodeVid .person personId]
        [encodeVid .person personId] [] = found := hsearch
    rw [ic1, if_neg hperson]
    simp only [hfinal]
    exact hrows
  · rw [htake]
    refine hforall.imp fun c row hrow => ?_
    obtain ⟨person, hperson, rfl⟩ := Option.map_eq_some_iff.mp hrow
    exact ⟨person, hperson, rfl⟩

theorem ic1_eq_reference_chain :
    ∃ l rows, (chain 2).ListsNamed "" (encodeVid .person 0) 0 3 l ∧
      l.Pairwise (fun c c' => c.key ≤ c'.key) ∧ (chain 2).ic1 0 "" 1 = some rows ∧
        List.Forall₂ (fun c row => ∃ person, (chain 2).person c.vid = some person ∧
          row = (chain 2).ic1Row c.distance c.vid person) (l.take 1) rows :=
  ic1_eq_reference (chain 2) (by decide) "" 1

end OpenGraph

end LsmGraph
