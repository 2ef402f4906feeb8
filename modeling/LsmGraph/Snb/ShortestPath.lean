import LsmGraph.Library.Bfs
import LsmGraph.Snb.Vertices
import Mathlib.Data.UInt

/-! # IC13: the length of a shortest path

`ic13` searches breadth first with a queue of vertices and depths and returns at the first sight of
the goal. The depths are `i32` and wrap; a `fuel` argument bounds the turns of the loop, of which
there are never more than vertices. `ic13_eq` says what is returned for any two persons, and
`ic13_exact_iff` when that is the distance. -/

namespace LsmGraph

open Bfs KeyedSort

structure Ic13Row where
  shortestPathLength : Int32
  deriving DecidableEq, Repr

/-- The inner loop of `ic13`: it returns a length at the first sight of the goal, or leaves `seen`
and `queue`. -/
def ic13Scan (goal : VertexId) (depth : Int32) :
    List VertexId → List VertexId → List (VertexId × Int32) →
      Int32 ⊕ (List VertexId × List (VertexId × Int32))
  | [], seen, queue => .inr (seen, queue)
  | nbr :: nbrs, seen, queue =>
      if nbr ∈ seen then ic13Scan goal depth nbrs seen queue
      else if nbr = goal then .inl (depth + 1)
      else ic13Scan goal depth nbrs (seen ++ [nbr]) (queue ++ [(nbr, depth + 1)])

namespace OpenGraph

variable (g : OpenGraph)

/-- The loop of `ic13` over its queue. -/
def ic13Loop (goal : VertexId) : Nat → List VertexId → List (VertexId × Int32) → Option Int32
  | 0, _, _ => none
  | _ + 1, _, [] => some (-1)
  | fuel + 1, seen, (vid, depth) :: queue =>
      match ic13Scan goal depth (g.knowsNeighbors vid) seen queue with
      | .inl length => some length
      | .inr (seen, queue) => ic13Loop goal fuel seen queue

def ic13 (fuel : Nat) (person1Id person2Id : Int64) : Option Ic13Row :=
  if person1Id = person2Id then some ⟨0⟩
  else
    let start := encodeVid .person person1Id
    let goal := encodeVid .person person2Id
    if g.person start = none ∨ g.person goal = none then some ⟨-1⟩
    else (g.ic13Loop goal fuel [start] [(start, 0)]).map Ic13Row.mk

end OpenGraph

/-! ## What the loops do -/

/-- The scan of one vertex, when the goal was not seen yet. -/
theorem ic13Scan_eq {goal : VertexId} (depth : Int32) (nbrs : List VertexId) {seen : List VertexId}
    (hgoal : goal ∉ seen) (queue : List (VertexId × Int32)) :
    ic13Scan goal depth nbrs seen queue =
      if goal ∈ nbrs then .inl (depth + 1)
      else .inr (seen ++ firstByKey id seen nbrs,
        queue ++ (firstByKey id seen nbrs).map fun nbr => (nbr, depth + 1)) := by
  induction nbrs generalizing seen queue with
  | nil => simp [ic13Scan]
  | cons nbr nbrs ih =>
      rw [ic13Scan, firstByKey_cons]
      by_cases hnbr : nbr ∈ seen
      · have hne : goal ≠ nbr := fun heq => hgoal (heq ▸ hnbr)
        rw [if_pos hnbr, if_pos (show id nbr ∈ seen from hnbr), ih hgoal]
        simp [hne]
      · rw [if_neg hnbr, if_neg (show id nbr ∉ seen from hnbr)]
        by_cases heq : nbr = goal
        · rw [if_pos heq, if_pos (heq ▸ List.mem_cons_self)]
        · have hgoal' : goal ∉ seen ++ [nbr] := by
            simp [hgoal, Ne.symm heq]
          have hseen : firstByKey id (seen ++ [nbr]) nbrs = firstByKey id (nbr :: seen) nbrs :=
            firstByKey_congr fun a _ => by simp [or_comm]
          rw [if_neg heq, ih hgoal', hseen]
          simp [Ne.symm heq]

/-- Marking never gets past the number of vertex ids. -/
theorem length_le_of_nodup {vids : List VertexId} (h : vids.Nodup) : vids.length ≤ 2 ^ 64 := by
  have hnodup : (vids.map UInt64.toNat).Nodup := h.map fun _ _ => UInt64.toNat_inj.mp
  have hsub : vids.map UInt64.toNat ⊆ List.range (2 ^ 64) := by
    intro n hn
    obtain ⟨vid, -, rfl⟩ := List.mem_map.mp hn
    exact List.mem_range.mpr vid.toNat_lt
  have hlength := (List.subperm_of_subset hnodup hsub).length_le
  rwa [List.length_map, List.length_range] at hlength

namespace OpenGraph

variable {g : OpenGraph} {start goal : VertexId}

/-- What `ic13` returns: the distance as an `i32`, or `-1` if there is no path. -/
def Found (g : OpenGraph) (start goal : VertexId) (length : Int32) : Prop :=
  (∃ n, Dist g.knowsNeighbors start n goal ∧ length = Int32.ofNat n) ∨
    (∀ n, ¬ Walk g.knowsNeighbors start n goal) ∧ length = -1

theorem Found.unique {length length' : Int32} (h : g.Found start goal length)
    (h' : g.Found start goal length') : length = length' := by
  rcases h with ⟨n, hn, rfl⟩ | ⟨hnone, rfl⟩
  · rcases h' with ⟨m, hm, rfl⟩ | ⟨hnone, rfl⟩
    · rw [hn.unique hm]
    · exact absurd hn.1 (hnone n)
  · rcases h' with ⟨m, hm, rfl⟩ | ⟨-, rfl⟩
    · exact absurd hm.1 (hnone m)
    · rfl

/-- The queue of the search: the rest of one level, and what is known of the next. -/
def queueOf (d : Nat) (rest nxt : List VertexId) : List (VertexId × Int32) :=
  rest.map (fun vid => (vid, Int32.ofNat d)) ++ nxt.map fun vid => (vid, Int32.ofNat (d + 1))

/-- **The loop returns** what there is to find, before the fuel is used up. -/
theorem ic13Loop_eq {fuel d : Nat} {rest nxt seen : List VertexId}
    (h : Exploring g.knowsNeighbors start d rest nxt seen) (hgoal : goal ∉ seen)
    (hfuel : rest.length + nxt.length + (2 ^ 64 - seen.length) < fuel) :
    ∃ length, g.ic13Loop goal fuel seen (queueOf d rest nxt) = some length ∧
      g.Found start goal length := by
  induction fuel generalizing d rest nxt seen with
  | zero => exact absurd hfuel (Nat.not_lt_zero _)
  | succ fuel ih =>
      -- the turn that takes the first vertex of a level
      have hturn : ∀ {d u rest nxt}, Exploring g.knowsNeighbors start d (u :: rest) nxt seen →
          rest.length + 1 + nxt.length + (2 ^ 64 - seen.length) < fuel + 1 →
          ∃ length, g.ic13Loop goal (fuel + 1) seen (queueOf d (u :: rest) nxt) = some length ∧
            g.Found start goal length := by
        intro d u rest nxt h hfuel
        have hsucc : Int32.ofNat (d + 1) = Int32.ofNat d + 1 := Int32.ofNat_add d 1
        rw [queueOf, List.map_cons, List.cons_append, ic13Loop, ic13Scan_eq _ _ hgoal]
        by_cases hmem : goal ∈ g.knowsNeighbors u
        · rw [if_pos hmem]
          exact ⟨_, rfl, Or.inl ⟨d + 1, h.dist_of_notMem hmem hgoal, hsucc.symm⟩⟩
        · rw [if_neg hmem]
          have hvisit := h.visit
          have hlen := length_le_of_nodup hvisit.seen_nodup
          rw [List.length_append] at hlen
          have hgoal' : goal ∉ seen ++ firstByKey id seen (g.knowsNeighbors u) := by
            rw [List.mem_append, mem_firstByKey_id]
            exact fun hor => hor.elim hgoal fun hand => hmem hand.1
          have hqueue : List.map (fun vid => (vid, Int32.ofNat d)) rest ++
              List.map (fun vid => (vid, Int32.ofNat (d + 1))) nxt ++
                (firstByKey id seen (g.knowsNeighbors u)).map
                  (fun nbr => (nbr, Int32.ofNat d + 1)) =
              queueOf d rest (nxt ++ firstByKey id seen (g.knowsNeighbors u)) := by
            rw [queueOf, List.map_append, List.append_assoc, hsucc]
          simp only [hqueue]
          -- what is put into the queue is taken from the ids not seen yet
          refine ih hvisit hgoal' ?_
          rw [List.length_append, List.length_append]
          omega
      cases rest with
      | cons u rest =>
          rw [List.length_cons] at hfuel
          exact hturn h hfuel
      | nil =>
          cases nxt with
          | nil =>
              refine ⟨-1, rfl, Or.inr ⟨fun n hwalk => hgoal (h.mem_seen_of_walk hwalk), rfl⟩⟩
          | cons u nxt =>
              -- the level is done, and the queue holds the whole next one
              have hqueue : queueOf d [] (u :: nxt) = queueOf (d + 1) (u :: nxt) [] := by
                rw [queueOf, queueOf]
                simp
              rw [hqueue]
              rw [List.length_nil, List.length_cons] at hfuel
              refine hturn h.nextLevel ?_
              rw [List.length_nil]
              omega

/-- **IC13 on two persons**: it returns, and what it returns is the distance as an `i32`. -/
theorem ic13_eq {person1Id person2Id : Int64} (h₁ : g.HasPerson person1Id)
    (h₂ : g.HasPerson person2Id) (hne : person1Id ≠ person2Id) {fuel : Nat} (hfuel : 2 ^ 64 < fuel) :
    ∃ length, g.ic13 fuel person1Id person2Id = some ⟨length⟩ ∧
      g.Found (encodeVid .person person1Id) (encodeVid .person person2Id) length := by
  have hgoal : encodeVid .person person2Id ∉ [encodeVid .person person1Id] := fun hmem =>
    encodeVid_ne h₁ h₂ hne (List.mem_singleton.mp hmem).symm
  have hmeasure : [encodeVid .person person1Id].length + ([] : List VertexId).length +
      (2 ^ 64 - [encodeVid .person person1Id].length) < fuel := by
    rw [List.length_singleton, List.length_nil]
    omega
  obtain ⟨length, hloop, hfound⟩ := ic13Loop_eq exploring_start hgoal hmeasure
  have hstored := not_or.mpr ⟨h₁.person_ne_none, h₂.person_ne_none⟩
  have hqueue : queueOf 0 [encodeVid .person person1Id] [] =
      [(encodeVid .person person1Id, 0)] := rfl
  rw [hqueue] at hloop
  refine ⟨length, ?_, hfound⟩
  rw [ic13, if_neg hne, if_neg hstored, hloop]
  rfl

/-- The row holds the distance, and `-1` iff there is no path. -/
def IsShortestLength (g : OpenGraph) (start goal : VertexId) (row : Ic13Row) : Prop :=
  (∀ n, Dist g.knowsNeighbors start n goal → row.shortestPathLength.toInt = n) ∧
    (row.shortestPathLength = -1 ↔ ∀ n, ¬ Walk g.knowsNeighbors start n goal)

/-- A length found is right iff the distance fits an `i32`. -/
theorem isShortestLength_iff {length : Int32} (h : g.Found start goal length) :
    g.IsShortestLength start goal ⟨length⟩ ↔
      ∀ n, Dist g.knowsNeighbors start n goal → n < 2 ^ 31 := by
  constructor
  · intro hrow n hn
    have hle := length.toInt_lt
    rw [hrow.1 n hn] at hle
    omega
  · intro hsmall
    rcases h with ⟨n, hn, rfl⟩ | ⟨hnone, rfl⟩
    · have hnat : (Int32.ofNat n).toInt = n := Int32.toInt_ofNat_of_lt (hsmall n hn)
      refine ⟨fun m hm => by rw [hnat, hm.unique hn], iff_of_false ?_ fun hnone => hnone n hn.1⟩
      intro hneg
      have hneg : Int32.ofNat n = -1 := hneg
      rw [hneg] at hnat
      have hminus : (-1 : Int32).toInt = -1 := rfl
      omega
    · exact ⟨fun n hn => absurd hn.1 (hnone n), iff_of_true rfl hnone⟩

/-- **IC13 is exact iff the distance fits an `i32`.** -/
theorem ic13_exact_iff {person1Id person2Id : Int64} (h₁ : g.HasPerson person1Id)
    (h₂ : g.HasPerson person2Id) (hne : person1Id ≠ person2Id) :
    (∃ row, (∀ fuel, 2 ^ 64 < fuel → g.ic13 fuel person1Id person2Id = some row) ∧
        g.IsShortestLength (encodeVid .person person1Id) (encodeVid .person person2Id) row) ↔
      ∀ n, Dist g.knowsNeighbors (encodeVid .person person1Id) n (encodeVid .person person2Id) →
        n < 2 ^ 31 := by
  constructor
  · rintro ⟨row, hrow, hright⟩
    obtain ⟨length, hreturn, hfound⟩ := ic13_eq h₁ h₂ hne (Nat.lt_succ_self (2 ^ 64))
    cases (hrow _ (Nat.lt_succ_self (2 ^ 64))).symm.trans hreturn
    exact (isShortestLength_iff hfound).mp hright
  · intro hsmall
    obtain ⟨length, hreturn, hfound⟩ := ic13_eq h₁ h₂ hne (Nat.lt_succ_self (2 ^ 64))
    refine ⟨⟨length⟩, fun fuel hfuel => ?_, (isShortestLength_iff hfound).mpr hsmall⟩
    obtain ⟨length', hreturn', hfound'⟩ := ic13_eq h₁ h₂ hne hfuel
    rw [hreturn', hfound'.unique hfound]

end OpenGraph

/-! ## Long chains -/

/-- The person with id `0`. -/
def chainFirst : VertexId := encodeVid .person 0

def chainPerson (id : Int64) : PersonProps := ⟨id, "", "", "", 0, 0, "", "", "", ""⟩

/-- The persons `0` to `len`, each of whom knows the next. -/
def chain (len : UInt64) : OpenGraph where
  edgeProps _ := none
  adjacency key :=
    if key.2 = EdgeLabel.knows.asI32 ∧ chainFirst ≤ key.1 ∧ key.1 < chainFirst + len then
      some [key.1 + 1]
    else none
  vertices vid :=
    if chainFirst ≤ vid ∧ vid ≤ chainFirst + len then
      some (.person (chainPerson (vid - chainFirst).toInt64))
    else none

theorem toNat_chainFirst : chainFirst.toNat = 2 ^ 56 := by decide

theorem toNat_chain {k : Nat} (hk : k < 2 ^ 56) :
    (chainFirst + UInt64.ofNat k).toNat = 2 ^ 56 + k := by
  rw [UInt64.toNat_add, toNat_chainFirst, UInt64.toNat_ofNat_of_lt' (hk.trans (by decide))]
  omega

theorem mem_knowsNeighbors_chain {len : UInt64} {u v : VertexId} :
    v ∈ (chain len).knowsNeighbors u ↔
      chainFirst ≤ u ∧ u < chainFirst + len ∧ v = u + 1 := by
  rw [OpenGraph.knowsNeighbors, SnbGraph.outNeighborsCached, chain]
  simp only [true_and]
  by_cases hu : chainFirst ≤ u ∧ u < chainFirst + len
  · rw [if_pos hu]
    simp [hu.1, hu.2]
  · rw [if_neg hu]
    simp only [Option.getD_none, List.not_mem_nil, false_iff]
    exact fun h => hu ⟨h.1, h.2.1⟩

/-- The only walk along the chain. -/
theorem walk_chain_iff {len : UInt64} (hlen : len.toNat < 2 ^ 56) {n : Nat} {v : VertexId} :
    Walk (chain len).knowsNeighbors chainFirst n v ↔
      n ≤ len.toNat ∧ v = chainFirst + UInt64.ofNat n := by
  have hend : (chainFirst + len).toNat = 2 ^ 56 + len.toNat := by
    rw [UInt64.toNat_add, toNat_chainFirst]
    omega
  induction n generalizing v with
  | zero =>
      have hzero : chainFirst + UInt64.ofNat 0 = chainFirst := by decide
      rw [hzero]
      constructor
      · exact fun h => ⟨Nat.zero_le _, h.eq_start⟩
      · rintro ⟨-, rfl⟩
        exact .refl
  | succ n ih =>
      have hsucc : chainFirst + UInt64.ofNat n + 1 = chainFirst + UInt64.ofNat (n + 1) := by
        rw [UInt64.ofNat_add, UInt64.add_assoc]
        rfl
      constructor
      · intro h
        cases h with
        | tail hu hv =>
            obtain ⟨hn, rfl⟩ := ih.mp hu
            obtain ⟨-, hlt, rfl⟩ := mem_knowsNeighbors_chain.mp hv
            rw [UInt64.lt_iff_toNat_lt, toNat_chain (by omega), hend] at hlt
            exact ⟨by omega, hsucc⟩
      · rintro ⟨hn, rfl⟩
        refine (ih.mpr ⟨by omega, rfl⟩).tail (mem_knowsNeighbors_chain.mpr ⟨?_, ?_, hsucc.symm⟩)
        · rw [UInt64.le_iff_toNat_le, toNat_chain (by omega), toNat_chainFirst]
          omega
        · rw [UInt64.lt_iff_toNat_lt, toNat_chain (by omega), hend]
          omega

/-- The last person of a chain is as far away as the chain is long. -/
theorem dist_chain {len : UInt64} (hlen : len.toNat < 2 ^ 56) :
    Dist (chain len).knowsNeighbors chainFirst len.toNat (chainFirst + len) := by
  have hself : UInt64.ofNat len.toNat = len := UInt64.ofNat_toNat
  refine ⟨(walk_chain_iff hlen).mpr ⟨le_refl _, by rw [hself]⟩, fun k hk hwalk => ?_⟩
  have heq := congrArg UInt64.toNat ((walk_chain_iff hlen).mp hwalk).2
  rw [toNat_chain (by omega), UInt64.toNat_add, toNat_chainFirst] at heq
  omega

namespace OpenGraph

theorem ic13_exact_iff_chain :
    (∃ row, (∀ fuel, 2 ^ 64 < fuel → (chain 2).ic13 fuel 0 2 = some row) ∧
        (chain 2).IsShortestLength (encodeVid .person 0) (encodeVid .person 2) row) ↔
      ∀ n, Dist (chain 2).knowsNeighbors (encodeVid .person 0) n (encodeVid .person 2) →
        n < 2 ^ 31 :=
  ic13_exact_iff ⟨chainPerson 0, by decide, rfl⟩ ⟨chainPerson 2, by decide, rfl⟩ (by decide)

/-- **The depth overflows**: the ends of a chain of `2 ^ 31 + 1` persons get a negative length. -/
theorem ic13_overflows :
    ¬ ∃ row, (∀ fuel, 2 ^ 64 < fuel → (chain (2 ^ 31)).ic13 fuel 0 (2 ^ 31) = some row) ∧
      (chain (2 ^ 31)).IsShortestLength (encodeVid .person 0) (encodeVid .person (2 ^ 31)) row := by
  rintro ⟨row, -, hrow, -⟩
  have hdist : Dist _ chainFirst ((2 ^ 31 : UInt64)).toNat (chainFirst + 2 ^ 31) :=
    dist_chain (by decide)
  have hlt := row.shortestPathLength.toInt_lt
  rw [hrow _ hdist] at hlt
  exact absurd hlt (by decide)

end OpenGraph

end LsmGraph
