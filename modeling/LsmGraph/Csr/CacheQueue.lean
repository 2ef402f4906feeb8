import LsmGraph.Csr.Cache
import LsmGraph.Library.Recency

/-! # Which file the metadata cache evicts

Runs of the cache of `csr/cache.rs`. A hit appends the file to the queue and leaves the entries the
file already has there, so the entry at the front may be an old one of a file that was used since.
In every run the queue puts the last uses of the cached files in the order of the calls
(`CacheInv.order`), but an insertion at capacity removes the first cached file of the queue
(`evict_full`), which is the least recently used one only when no other cached file was last used
before it (`evictsOldest_iff`). Nothing bounds the queue (`lru_unbounded`). -/

namespace LsmGraph

open Recency

/-- The calls of the cache's public functions. -/
inductive CacheCall
  | get (fileId : FileId)
  | insert (fileId : FileId) (metadata : CachedCsrMetadata)
  | cachedMayContainSrc (fileId : FileId) (src : VertexId)

/-- The file a call is about. -/
def CacheCall.fileId : CacheCall → FileId
  | .get fileId => fileId
  | .insert fileId _ => fileId
  | .cachedMayContainSrc fileId _ => fileId

namespace CsrMetadataCache

def call (c : CsrMetadataCache) : CacheCall → CsrMetadataCache
  | .get fileId => (c.get fileId).2
  | .insert fileId metadata => c.insert fileId metadata
  | .cachedMayContainSrc fileId src => (c.cachedMayContainSrc fileId src).2

/-- A new cache after a sequence of calls. -/
def after (maxEntries : Nat) (calls : List CacheCall) : CsrMetadataCache :=
  calls.foldl call (new maxEntries)

theorem after_concat (maxEntries : Nat) (calls : List CacheCall) (last : CacheCall) :
    after maxEntries (calls ++ [last]) = (after maxEntries calls).call last := by
  rw [after, List.foldl_append, List.foldl_cons, List.foldl_nil, after]

/-- The number of cached files. -/
def size (c : CsrMetadataCache) : Nat := c.map.entries.length

/-- The cached file the eviction loop meets first. -/
def frontCached (c : CsrMetadataCache) : Option FileId := c.lru.find? fun id => id ∈ c.map

/-! ## One insertion at capacity -/

/-- Erasing what is not there changes nothing. -/
theorem erase_of_notMem {map : AList fun _ : FileId => CachedCsrMetadata} {id : FileId}
    (h : id ∉ map) : map.erase id = map :=
  AList.ext (List.kerase_of_notMem_keys h)

/-- The eviction loop stops at once below the capacity. -/
theorem evict_of_lt {maxEntries : Nat} {fileId : FileId}
    {map : AList fun _ : FileId => CachedCsrMetadata} (h : map.entries.length < maxEntries)
    (lru : List FileId) : evict maxEntries fileId map lru = (map, lru) := by
  cases lru with
  | nil => rfl
  | cons victim lru => rw [evict, if_neg (not_le.mpr h)]

/-- **At capacity the loop drops the entries of files no longer cached, and removes the first cached
file of the queue.** -/
theorem evict_full {fileId victim : FileId} {map : AList fun _ : FileId => CachedCsrMetadata}
    {lru : List FileId} (hfile : fileId ∉ map)
    (hfront : (lru.find? fun id => id ∈ map) = some victim) :
    ∃ stale rest, lru = stale ++ victim :: rest ∧ (∀ id ∈ stale, id ∉ map) ∧
      evict map.entries.length fileId map lru = (map.erase victim, rest) := by
  induction lru with
  | nil => cases hfront
  | cons id lru ih =>
      rw [evict, if_pos (le_refl _)]
      by_cases hid : id ∈ map
      · simp only [List.find?_cons, hid, decide_true, Option.some.injEq] at hfront
        subst hfront
        have hne : id ≠ fileId := fun heq => hfile (heq ▸ hid)
        have hlength : (map.erase id).entries.length < map.entries.length := by
          have hkeys : (map.erase id).keys.length < map.keys.length := by
            rw [AList.keys_erase, List.length_erase_of_mem hid]
            exact Nat.sub_lt (List.length_pos_of_mem hid) Nat.one_pos
          simpa only [AList.keys, List.keys, List.length_map] using hkeys
        refine ⟨[], lru, rfl, fun _ h => absurd h List.not_mem_nil, ?_⟩
        rw [if_pos hne, evict_of_lt hlength]
      · simp only [List.find?_cons, hid, decide_false] at hfront
        obtain ⟨stale, rest, rfl, hstale, hevict⟩ := ih hfront
        refine ⟨id :: stale, rest, rfl, List.forall_mem_cons.mpr ⟨hid, hstale⟩, ?_⟩
        rw [erase_of_notMem hid, ite_self, hevict]

/-- At capacity some cached file is in the queue, so the loop finds a victim. -/
theorem exists_frontCached {c : CsrMetadataCache} (hqueued : ∀ id ∈ c.map, id ∈ c.lru)
    (hfull : 1 ≤ c.size) : ∃ victim, c.frontCached = some victim := by
  obtain ⟨entry, hentry⟩ := List.exists_mem_of_length_pos hfull
  have hmem : entry.1 ∈ c.map := List.mem_map_of_mem (f := Sigma.fst) hentry
  rw [← Option.isSome_iff_exists, frontCached, List.find?_isSome]
  exact ⟨entry.1, hqueued _ hmem, decide_eq_true hmem⟩

theorem mem_of_frontCached {c : CsrMetadataCache} {victim : FileId}
    (h : c.frontCached = some victim) : victim ∈ c.map :=
  of_decide_eq_true (List.find?_some (p := fun id => decide (id ∈ c.map)) h)

/-- A lookup misses and changes nothing, or appends its file to the queue. -/
theorem get_cases (c : CsrMetadataCache) (fileId : FileId) :
    fileId ∉ c.map ∧ (c.get fileId).2 = c ∨
      fileId ∈ c.map ∧ (c.get fileId).2 = { c with lru := c.lru ++ [fileId] } := by
  cases hlookup : c.map.lookup fileId with
  | none =>
      refine Or.inl ⟨AList.lookup_eq_none.mp hlookup, ?_⟩
      simp only [get, hlookup]
  | some value =>
      refine Or.inr ⟨AList.lookup_isSome.mp (by rw [hlookup, Option.isSome_some]), ?_⟩
      simp only [get, hlookup]

/-- Storing a cached file again, or another one below the capacity, evicts nothing. -/
theorem insert_of_room {c : CsrMetadataCache} {fileId : FileId}
    (h : fileId ∈ c.map ∨ c.size < c.maxEntries) (metadata : CachedCsrMetadata) :
    c.insert fileId metadata =
      { c with map := c.map.insert fileId metadata, lru := c.lru ++ [fileId] } := by
  rw [insert]
  by_cases hfile : fileId ∈ c.map
  · rw [if_pos hfile]
  · rw [if_neg hfile, evict_of_lt (h.resolve_left hfile)]

/-- Storing another file at the capacity evicts the first cached file of the queue. -/
theorem insert_of_full {c : CsrMetadataCache} {fileId victim : FileId} (hfile : fileId ∉ c.map)
    (hsize : c.size = c.maxEntries) (hfront : c.frontCached = some victim)
    (metadata : CachedCsrMetadata) :
    ∃ stale rest, c.lru = stale ++ victim :: rest ∧ (∀ id ∈ stale, id ∉ c.map) ∧
      c.insert fileId metadata =
        { c with map := (c.map.erase victim).insert fileId metadata, lru := rest ++ [fileId] } := by
  obtain ⟨stale, rest, hlru, hstale, hevict⟩ := evict_full hfile hfront
  refine ⟨stale, rest, hlru, hstale, ?_⟩
  rw [insert, if_neg hfile, ← hsize, size, hevict]

/-! ## What a call does -/

theorem size_eq_length_keys (c : CsrMetadataCache) : c.size = c.map.keys.length :=
  (List.length_map ..).symm

/-- **The calls.** A call misses and changes nothing, or appends its file to the queue: for a cached
file that is all, and for another one the front of the queue may have been cut off before, with the
files named there. -/
theorem call_cases {c : CsrMetadataCache} (hpos : 1 ≤ c.maxEntries) (hsize : c.size ≤ c.maxEntries)
    (hqueued : ∀ id ∈ c.map, id ∈ c.lru) (x : CacheCall) :
    (x.fileId ∉ c.map ∧ c.call x = c) ∨
      ((c.call x).maxEntries = c.maxEntries ∧ (c.call x).size ≤ c.maxEntries ∧
        ∃ front rest, c.lru = front ++ rest ∧ (c.call x).lru = rest ++ [x.fileId] ∧
          ∀ id, id ∈ (c.call x).map ↔ id = x.fileId ∨ id ∈ c.map ∧ id ∉ front) := by
  -- a hit drops nothing from the queue
  have hhit : ∀ fileId ∈ c.map, ∀ id,
      id ∈ c.map ↔ id = fileId ∨ id ∈ c.map ∧ id ∉ ([] : List FileId) := by
    intro fileId hfile id
    constructor
    · exact fun h => Or.inr ⟨h, List.not_mem_nil⟩
    · rintro (rfl | ⟨h, -⟩)
      · exact hfile
      · exact h
  cases x with
  | get fileId =>
      rcases get_cases c fileId with ⟨hfile, heq⟩ | ⟨hfile, heq⟩
      · exact Or.inl ⟨hfile, heq⟩
      · rw [call, heq]
        exact Or.inr ⟨rfl, hsize, [], c.lru, rfl, rfl, hhit fileId hfile⟩
  | cachedMayContainSrc fileId src =>
      rcases get_cases c fileId with ⟨hfile, heq⟩ | ⟨hfile, heq⟩
      · exact Or.inl ⟨hfile, heq⟩
      · rw [call, cachedMayContainSrc, heq]
        exact Or.inr ⟨rfl, hsize, [], c.lru, rfl, rfl, hhit fileId hfile⟩
  | insert fileId metadata =>
      refine Or.inr ?_
      rw [call]
      by_cases hroom : fileId ∈ c.map ∨ c.size < c.maxEntries
      · -- the loop does not run
        rw [insert_of_room hroom]
        refine ⟨rfl, ?_, [], c.lru, rfl, rfl, fun id => ?_⟩
        · rw [size_eq_length_keys, AList.keys_insert, List.length_cons]
          rcases hroom with hfile | hlt
          · rw [List.length_erase_of_mem hfile, ← size_eq_length_keys]
            have : 0 < c.size := List.length_pos_of_mem hfile |>.trans_eq (size_eq_length_keys c).symm
            omega
          · have hle : (c.map.keys.erase fileId).length ≤ c.map.keys.length :=
              List.length_erase_le
            rw [← size_eq_length_keys] at hle
            omega
        · rw [AList.mem_insert]
          simp only [List.not_mem_nil, not_false_iff, and_true]
          rfl
      · -- stale entries are dropped up to the first cached file, which goes
        obtain ⟨hfile, hge⟩ := not_or.mp hroom
        have hfull : c.size = c.maxEntries := le_antisymm hsize (not_lt.mp hge)
        obtain ⟨victim, hfront⟩ := exists_frontCached hqueued (hfull ▸ hpos)
        have hvictim := mem_of_frontCached hfront
        obtain ⟨stale, rest, hlru, hstale, heq⟩ := insert_of_full hfile hfull hfront metadata
        rw [heq]
        refine ⟨rfl, ?_, stale ++ [victim], rest, ?_, rfl, fun id => ?_⟩
        · have hnot : fileId ∉ (c.map.erase victim).keys := by
            rw [AList.keys_erase]
            exact fun h => hfile (List.mem_of_mem_erase h)
          rw [size_eq_length_keys, AList.keys_insert, List.length_cons, List.erase_of_not_mem hnot,
            AList.keys_erase, List.length_erase_of_mem hvictim, ← size_eq_length_keys]
          omega
        · rw [List.append_assoc, List.singleton_append, hlru]
        · rw [AList.mem_insert, AList.mem_erase, List.mem_append, List.mem_singleton, not_or]
          refine or_congr_right ⟨fun h => ⟨h.2, fun hmem => hstale id hmem h.2, h.1⟩, ?_⟩
          exact fun h => ⟨h.2.2, h.1⟩

/-- The bookkeeping of a cache whose calls so far are `calls`. -/
structure CacheInv (calls : List CacheCall) (c : CsrMetadataCache) : Prop where
  pos : 1 ≤ c.maxEntries
  size_le : c.size ≤ c.maxEntries
  queued : ∀ id ∈ c.map, id ∈ c.lru
  order : SameOrder (calls.map CacheCall.fileId) c.lru (· ∈ c.map)

theorem cacheInv_new (maxEntries : Nat) : CacheInv [] (new maxEntries) where
  pos := le_max_right _ _
  size_le := Nat.zero_le _
  queued id hid := absurd hid (AList.notMem_empty id)
  order id _ hid := absurd hid (AList.notMem_empty id)

/-- **Step lemma.** -/
theorem CacheInv.call {calls : List CacheCall} {c : CsrMetadataCache} (h : CacheInv calls c)
    (x : CacheCall) : CacheInv (calls ++ [x]) (c.call x) := by
  have hcalls : (calls ++ [x]).map CacheCall.fileId = calls.map CacheCall.fileId ++ [x.fileId] := by
    rw [List.map_append, List.map_singleton]
  rcases call_cases h.pos h.size_le h.queued x with
    ⟨hmiss, heq⟩ | ⟨hmax, hsize, front, rest, hlru, hlru', hmap⟩
  · rw [heq]
    exact ⟨h.pos, h.size_le, h.queued, hcalls ▸ h.order.concat_left hmiss⟩
  · -- a file that stays has all its entries behind the front
    have hrest : ∀ id, id ∈ c.map ∧ id ∉ front → id ∈ rest := by
      rintro id ⟨hid, hfront⟩
      have hmem := h.queued id hid
      rw [hlru] at hmem
      exact (List.mem_append.mp hmem).resolve_left hfront
    refine ⟨hmax ▸ h.pos, hmax ▸ hsize, fun id hid => ?_, ?_⟩
    · rw [hlru']
      rcases (hmap id).mp hid with rfl | hid
      · exact List.mem_append_right _ List.mem_cons_self
      · exact List.mem_append_left _ (hrest id hid)
    · rw [hcalls, hlru']
      have hkept : SameOrder (calls.map CacheCall.fileId) rest fun id => id ∈ c.map ∧ id ∉ front :=
        ((hlru ▸ h.order).mono fun id (hid : id ∈ c.map ∧ _) => hid.1).drop_front hrest
      exact hkept.concat fun id => (hmap id).mp

/-- **Run lemma.** -/
theorem cacheInv_after (maxEntries : Nat) (calls : List CacheCall) :
    CacheInv calls (after maxEntries calls) := by
  induction calls using List.reverseRecOn with
  | nil => exact cacheInv_new maxEntries
  | append_singleton calls x ih =>
      rw [after_concat]
      exact ih.call x

theorem maxEntries_after {maxEntries : Nat} (hpos : 1 ≤ maxEntries) (calls : List CacheCall) :
    (after maxEntries calls).maxEntries = maxEntries := by
  induction calls using List.reverseRecOn with
  | nil => exact max_eq_left hpos
  | append_singleton calls x ih =>
      have h := cacheInv_after maxEntries calls
      rw [after_concat]
      rcases call_cases h.pos h.size_le h.queued x with ⟨-, heq⟩ | ⟨heq, -⟩
      · rw [heq, ih]
      · rw [heq, ih]

/-! ## What a lookup returns -/

/-- After a call a file has the metadata it had, unless the call stored it. -/
theorem lookup_call {c : CsrMetadataCache} {x : CacheCall} {id : FileId} {found : CachedCsrMetadata}
    (hx : ∀ metadata, x ≠ .insert id metadata) (h : (c.call x).map.lookup id = some found) :
    c.map.lookup id = some found := by
  cases x with
  | get fileId => rwa [call, map_get] at h
  | cachedMayContainSrc fileId src =>
      rw [call, cachedMayContainSrc] at h
      rwa [map_get] at h
  | insert fileId metadata =>
      rcases lookup_insert h with ⟨rfl, rfl⟩ | h
      · exact absurd rfl (hx found)
      · exact h

/-- The call removes the file from the cache. -/
def Evicts (c : CsrMetadataCache) (x : CacheCall) (id : FileId) : Prop :=
  id ∈ c.map ∧ id ∉ (c.call x).map

/-- **A stored file reads as it was stored last, until it is evicted.** -/
theorem lookup_after_insert (maxEntries : Nat) (id : FileId) (metadata : CachedCsrMetadata)
    (calls later : List CacheCall) (hlater : ∀ metadata', .insert id metadata' ∉ later) :
    (after maxEntries (calls ++ .insert id metadata :: later)).map.lookup id = some metadata ∨
      ∃ mid x rest, later = mid ++ x :: rest ∧
        (after maxEntries (calls ++ .insert id metadata :: mid)).Evicts x id := by
  induction later using List.reverseRecOn with
  | nil =>
      refine Or.inl ?_
      rw [after_concat, call, insert]
      exact AList.lookup_insert _
  | append_singleton later x ih =>
      have hnone : ∀ metadata', CacheCall.insert id metadata' ∉ later :=
        fun metadata' hmem => hlater metadata' (List.mem_append_left _ hmem)
      rcases ih hnone with hfound | ⟨mid, x', rest, rfl, hevicts⟩
      · rw [← List.cons_append, ← List.append_assoc, after_concat]
        cases hlookup : ((after maxEntries (calls ++ .insert id metadata :: later)).call x).map.lookup
            id with
        | none =>
            refine Or.inr ⟨later, x, [], rfl, ?_, AList.lookup_eq_none.mp hlookup⟩
            exact AList.lookup_isSome.mp (by rw [hfound, Option.isSome_some])
        | some found =>
            have hx : ∀ metadata', x ≠ .insert id metadata' := by
              rintro metadata' rfl
              exact hlater metadata' (List.mem_append_right _ List.mem_cons_self)
            exact Or.inl ((lookup_call hx hlookup).symm.trans hfound)
      · exact Or.inr ⟨mid, x', rest ++ [x], by rw [List.append_assoc, List.cons_append], hevicts⟩

/-! ## Which file is evicted -/

/-- The file that would be stored after `calls` is absent, and the cache is full. -/
def MustEvict (maxEntries : Nat) (calls : List CacheCall) (fileId : FileId) : Prop :=
  fileId ∉ (after maxEntries calls).map ∧ maxEntries ≤ (after maxEntries calls).size

/-- Storing the file removes the cached file whose latest call is oldest, and no other. -/
def EvictsOldest (maxEntries : Nat) (calls : List CacheCall) (fileId : FileId)
    (metadata : CachedCsrMetadata) : Prop :=
  let c := after maxEntries calls
  ∃ victim, Oldest (calls.map CacheCall.fileId) (· ∈ c.map) victim ∧
    ∀ id, id ∈ (c.insert fileId metadata).map ↔ id = fileId ∨ id ∈ c.map ∧ id ≠ victim

/-- No cached file has its last entry in the queue before the last entry of the cached file that
comes first in it. -/
def FrontOldest (c : CsrMetadataCache) : Prop :=
  ∀ victim, c.frontCached = some victim → ∀ id ∈ c.map, lastUse c.lru victim ≤ lastUse c.lru id

/-- **An eviction removes the least recently used file iff the front of the queue is that file.** -/
theorem evictsOldest_step {maxEntries : Nat} (hpos : 1 ≤ maxEntries) {calls : List CacheCall}
    {fileId : FileId} (hevict : MustEvict maxEntries calls fileId) (metadata : CachedCsrMetadata) :
    EvictsOldest maxEntries calls fileId metadata ↔ (after maxEntries calls).FrontOldest := by
  have h := cacheInv_after maxEntries calls
  have hmax := maxEntries_after hpos calls
  obtain ⟨hfile, hge⟩ := hevict
  have hfull : (after maxEntries calls).size = (after maxEntries calls).maxEntries :=
    le_antisymm h.size_le (hmax.symm ▸ hge)
  obtain ⟨victim, hfront⟩ := exists_frontCached h.queued (hpos.trans hge)
  have hvictim := mem_of_frontCached hfront
  obtain ⟨stale, rest, hlru, hstale, heq⟩ := insert_of_full hfile hfull hfront metadata
  have hmem : ∀ id, id ∈ ((after maxEntries calls).insert fileId metadata).map ↔
      id = fileId ∨ id ∈ (after maxEntries calls).map ∧ id ≠ victim := by
    intro id
    rw [heq, AList.mem_insert, AList.mem_erase, and_comm]
  have holdest := h.order.oldest_iff victim
  constructor
  · rintro ⟨oldest, hoet, hmem'⟩ victim' hfront' id hid
    -- the file removed is the one at the front
    have hsame : oldest = victim := by
      by_contra hne
      rcases (hmem' oldest).mp ((hmem oldest).mpr (Or.inr ⟨hoet.1, hne⟩)) with heq' | ⟨-, hself⟩
      · exact hfile (heq' ▸ hoet.1)
      · exact hself rfl
    have hvictim' : victim' = victim := Option.some.inj (hfront'.symm.trans hfront)
    rw [hvictim']
    exact (holdest.mp (hsame ▸ hoet)).2 id hid
  · intro hle
    exact ⟨victim, holdest.mpr ⟨hvictim, fun id hid => hle victim hfront id hid⟩, hmem⟩

/-- The metadata of a file without edges. -/
def emptyMetadata (fileId : FileId) : CachedCsrMetadata :=
  .new ⟨0, 0, 0, 0, 0, fileId, 0, 0, 0, 0, 0, 0, 0, 0, 0, 0, 0, 0, 0, 0⟩ []

/-- Files 1 and 2 are stored, and file 1 is read again. -/
def readAgain : List CacheCall :=
  [.insert 1 (emptyMetadata 1), .insert 2 (emptyMetadata 2), .get 1]

theorem length_lru_get {c : CsrMetadataCache} {fileId : FileId} (h : fileId ∈ c.map) :
    (c.get fileId).2.lru.length = c.lru.length + 1 := by
  rcases get_cases c fileId with ⟨hnot, -⟩ | ⟨-, heq⟩
  · exact absurd h hnot
  · rw [heq, List.length_append, List.length_singleton]

/-- Reading one cached file `n` times. -/
theorem length_lru_replicate {c : CsrMetadataCache} {fileId : FileId} (h : fileId ∈ c.map)
    (n : Nat) :
    ((List.replicate n (CacheCall.get fileId)).foldl call c).lru.length = c.lru.length + n := by
  induction n generalizing c with
  | zero => rfl
  | succ n ih =>
      have hmem : fileId ∈ (c.get fileId).2.map := (map_get c fileId).symm ▸ h
      rw [List.replicate_succ, List.foldl_cons, call, ih hmem, length_lru_get h]
      omega

/-- **The queue has no bound**, whatever the capacity; every cached file is in it. -/
theorem lru_unbounded (maxEntries : Nat) :
    (¬∃ bound, ∀ calls, (after maxEntries calls).lru.length ≤ bound) ∧
      ∀ calls, ∀ id ∈ (after maxEntries calls).map, id ∈ (after maxEntries calls).lru := by
  refine ⟨?_, fun calls => (cacheInv_after maxEntries calls).queued⟩
  rintro ⟨bound, hbound⟩
  have hmem : 1 ∈ ((new maxEntries).call (.insert 1 (emptyMetadata 1))).map := by
    rw [call, insert]
    exact (AList.mem_insert _).mpr (Or.inl rfl)
  have hle := hbound (.insert 1 (emptyMetadata 1) :: List.replicate bound (.get 1))
  rw [after, List.foldl_cons, length_lru_replicate hmem] at hle
  have hpos := List.length_pos_of_mem ((cacheInv_new maxEntries).call _ |>.queued 1 hmem)
  omega

/-- One entry, and yet no bound on the queue. -/
theorem not_bounded_lru : ¬∃ bound, ∀ calls, (after 1 calls).lru.length ≤ bound := by
  rintro ⟨bound, hbound⟩
  have hle := hbound (.insert 1 (emptyMetadata 1) :: List.replicate bound (.get 1))
  have hmem : 1 ∈ ((new 1).call (.insert 1 (emptyMetadata 1))).map := by decide +kernel
  have hlength := length_lru_replicate hmem bound
  have hone : ((new 1).call (.insert 1 (emptyMetadata 1))).lru.length = 1 := by decide +kernel
  rw [after, List.foldl_cons] at hle
  omega

end CsrMetadataCache

end LsmGraph
