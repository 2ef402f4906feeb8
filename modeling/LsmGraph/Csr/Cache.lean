import LsmGraph.Csr.Format
import Mathlib.Data.List.AList
import Mathlib.Data.List.GetD
import Mathlib.Tactic.NormNum
import Mathlib.Tactic.Positivity

/-! # Segment metadata cache

`csr/cache.rs`: the decoded header and offset table of recently read files, each with a Bloom filter
over its sources. The filter has no false negatives (`SourceBloom.mayContain_fromSources`), so a
cached `false` means that the file has no entry for the source. -/

namespace LsmGraph

/-! ## Bloom filter -/

/-- Finalizer of the source hash, in wrapping 64-bit arithmetic. -/
def mix64 (value : UInt64) : UInt64 :=
  let value := value ^^^ (value >>> 30)
  let value := value * 0xbf58476d1ce4e5b9
  let value := value ^^^ (value >>> 27)
  let value := value * 0x94d049bb133111eb
  value ^^^ (value >>> 31)

/-- `usize::next_power_of_two`. -/
def nextPowerOfTwo (n : Nat) : Nat := if n ≤ 1 then 1 else 2 ^ (Nat.log2 (n - 1) + 1)

structure SourceBloom where
  bits : List UInt64
  bitMask : UInt64
  deriving DecidableEq, Repr

namespace SourceBloom

/-- The three bit positions probed for a source. -/
def bitsFor (b : SourceBloom) (src : VertexId) : List UInt64 :=
  let h1 := mix64 src
  let h2 := mix64 (src ^^^ 0x9e3779b97f4a7c15)
  [h1 &&& b.bitMask, (h1 + h2) &&& b.bitMask, (h1 + h2 * 2) &&& b.bitMask]

/-- Set one bit. -/
def setBit (bits : List UInt64) (bit : UInt64) : List UInt64 :=
  bits.modify (bit / 64).toNat (· ||| (1 <<< (bit % 64)))

/-- Test one bit. -/
def testBit (bits : List UInt64) (bit : UInt64) : Bool :=
  bits.getD (bit / 64).toNat 0 &&& (1 <<< (bit % 64)) != 0

def insert (b : SourceBloom) (src : VertexId) : SourceBloom :=
  { b with bits := (b.bitsFor src).foldl setBit b.bits }

def fromSources (sources : List VertexId) : SourceBloom :=
  let bitCount := nextPowerOfTwo (max sources.length 4 * 16)
  let wordCount := (bitCount + 63) / 64
  sources.foldl insert
    { bits := List.replicate wordCount 0, bitMask := UInt64.ofNat (bitCount - 1) }

def mayContain (b : SourceBloom) (src : VertexId) : Bool :=
  if b.bits.isEmpty then false else (b.bitsFor src).all (testBit b.bits)

/-! ### No false negatives

Setting a bit clears none, so every bit set for an inserted source is still set when the source is
looked up; the positions probed depend on the mask only, which insertion keeps. -/

/-- A single-bit mask is not zero. -/
theorem one_shiftLeft_ne_zero (bit : UInt64) : (1 : UInt64) <<< (bit % 64) ≠ 0 := by
  have hlt : bit.toNat % 64 < 64 := Nat.mod_lt _ (by decide)
  have hpow : 2 ^ (bit.toNat % 64) < 2 ^ 64 := Nat.pow_lt_pow_right (by decide) hlt
  have hnat : ((1 : UInt64) <<< (bit % 64)).toNat = 2 ^ (bit.toNat % 64) := by
    simpa [Nat.shiftLeft_eq] using hpow
  intro h
  rw [h] at hnat
  exact absurd hnat (Nat.two_pow_pos _).ne

/-- Or-ing into a word keeps every bit already set under a mask. -/
theorem or_and_ne_zero {word m k : UInt64} (h : word &&& k ≠ 0) : (word ||| m) &&& k ≠ 0 := by
  have hdistrib : (word ||| m) &&& k = (word &&& k) ||| (m &&& k) :=
    UInt64.toBitVec_inj.mp BitVec.and_or_distrib_right
  rw [hdistrib, ne_eq, UInt64.or_eq_zero_iff]
  exact fun hzero => h hzero.1

/-- Setting a bit changes its own word only. -/
theorem getD_setBit (bits : List UInt64) (bit : UInt64) (i : ℕ) :
    (setBit bits bit).getD i 0 =
      if (bit / 64).toNat = i ∧ i < bits.length then bits.getD i 0 ||| (1 <<< (bit % 64))
      else bits.getD i 0 := by
  rw [setBit, List.getD_eq_getElem?_getD, List.getElem?_modify, List.getD_eq_getElem?_getD]
  by_cases hi : i < bits.length
  · rw [List.getElem?_eq_getElem hi]
    by_cases hword : (bit / 64).toNat = i
    · rw [if_pos ⟨hword, hi⟩]
      simp only [hword, if_true, Option.map_eq_map, Option.map_some, Option.getD_some]
    · rw [if_neg fun h => hword h.1]
      simp only [hword, if_false, Option.map_eq_map, Option.map_some, Option.getD_some]
  · rw [List.getElem?_eq_none (not_lt.mp hi), if_neg fun h => hi h.2]
    rfl

/-- A bit inside the array tests true once set. -/
theorem testBit_setBit_self {bits : List UInt64} {bit : UInt64}
    (h : (bit / 64).toNat < bits.length) : testBit (setBit bits bit) bit = true := by
  rw [testBit, bne_iff_ne, getD_setBit, if_pos ⟨rfl, h⟩, UInt64.or_comm]
  refine or_and_ne_zero ?_
  rw [UInt64.and_self]
  exact one_shiftLeft_ne_zero bit

/-- Setting a bit keeps every bit that is set. -/
theorem testBit_setBit_of_testBit {bits : List UInt64} {bit bit' : UInt64}
    (h : testBit bits bit = true) : testBit (setBit bits bit') bit = true := by
  rw [testBit, bne_iff_ne] at h
  rw [testBit, bne_iff_ne, getD_setBit]
  split
  · exact or_and_ne_zero h
  · exact h

@[simp] theorem length_setBit (bits : List UInt64) (bit : UInt64) :
    (setBit bits bit).length = bits.length := List.length_modify ..

theorem length_foldl_setBit (probes bits : List UInt64) :
    (probes.foldl setBit bits).length = bits.length := by
  induction probes generalizing bits with
  | nil => rfl
  | cons bit probes ih => rw [List.foldl_cons, ih, length_setBit]

theorem testBit_foldl_setBit_of_testBit {probes bits : List UInt64} {bit : UInt64}
    (h : testBit bits bit = true) : testBit (probes.foldl setBit bits) bit = true := by
  induction probes generalizing bits with
  | nil => exact h
  | cons bit' probes ih => exact ih (testBit_setBit_of_testBit h)

theorem testBit_foldl_setBit_of_mem {probes bits : List UInt64} {bit : UInt64} (hbit : bit ∈ probes)
    (hlt : (bit / 64).toNat < bits.length) : testBit (probes.foldl setBit bits) bit = true := by
  induction probes generalizing bits with
  | nil => exact absurd hbit List.not_mem_nil
  | cons bit' probes ih =>
      rw [List.foldl_cons]
      rcases List.mem_cons.mp hbit with rfl | hbit
      · exact testBit_foldl_setBit_of_testBit (testBit_setBit_self hlt)
      · exact ih hbit (by rwa [length_setBit])

/-- Every probe of a filter falls inside its bit array. -/
def InRange (b : SourceBloom) : Prop :=
  ∀ src, ∀ bit ∈ b.bitsFor src, (bit / 64).toNat < b.bits.length

@[simp] theorem bitMask_insert (b : SourceBloom) (src : VertexId) :
    (b.insert src).bitMask = b.bitMask := by
  rw [insert]

@[simp] theorem length_bits_insert (b : SourceBloom) (src : VertexId) :
    (b.insert src).bits.length = b.bits.length := by
  rw [insert]
  exact length_foldl_setBit _ _

theorem bitsFor_congr {b b' : SourceBloom} (h : b.bitMask = b'.bitMask) (src : VertexId) :
    b.bitsFor src = b'.bitsFor src := by
  rw [bitsFor, bitsFor, h]

theorem InRange.insert {b : SourceBloom} (h : b.InRange) (src : VertexId) :
    (b.insert src).InRange := by
  intro src' bit hbit
  rw [bitsFor_congr (bitMask_insert b src)] at hbit
  rw [length_bits_insert]
  exact h src' bit hbit

/-- A nonempty filter in range contains a source iff all its probes are set. -/
theorem mayContain_iff {b : SourceBloom} (h : b.InRange) (src : VertexId) :
    b.mayContain src = true ↔ ∀ bit ∈ b.bitsFor src, testBit b.bits bit = true := by
  have hne : b.bits.isEmpty = false := by
    rw [List.isEmpty_eq_false_iff, ← List.length_pos_iff]
    exact Nat.lt_of_le_of_lt (Nat.zero_le _) (h src _ List.mem_cons_self)
  rw [mayContain, hne, if_neg Bool.false_ne_true, List.all_eq_true]

theorem mayContain_insert_of_mayContain {b : SourceBloom} (h : b.InRange) {src src' : VertexId}
    (hsrc : b.mayContain src = true) : (b.insert src').mayContain src = true := by
  rw [mayContain_iff h] at hsrc
  rw [mayContain_iff (h.insert src'), bitsFor_congr (bitMask_insert b src'), insert]
  exact fun bit hbit => testBit_foldl_setBit_of_testBit (hsrc bit hbit)

theorem mayContain_insert_self {b : SourceBloom} (h : b.InRange) (src : VertexId) :
    (b.insert src).mayContain src = true := by
  rw [mayContain_iff (h.insert src), bitsFor_congr (bitMask_insert b src), insert]
  exact fun bit hbit => testBit_foldl_setBit_of_mem hbit (h src bit hbit)

/-- Inserted sources, and those contained before, are contained after a round of insertions. -/
theorem mayContain_foldl_insert {b : SourceBloom} (h : b.InRange) {sources : List VertexId}
    {src : VertexId} (hsrc : src ∈ sources ∨ b.mayContain src = true) :
    (sources.foldl SourceBloom.insert b).mayContain src = true := by
  induction sources generalizing b with
  | nil => exact hsrc.resolve_left List.not_mem_nil
  | cons src' sources ih =>
      refine ih (h.insert src') ?_
      rcases hsrc with hsrc | hsrc
      · rcases List.mem_cons.mp hsrc with rfl | hsrc
        · exact Or.inr (mayContain_insert_self h src)
        · exact Or.inl hsrc
      · exact Or.inr (mayContain_insert_of_mayContain h hsrc)

/-- A mask below the size of the bit array keeps every probe in range. -/
theorem inRange_of_bitMask {b : SourceBloom} (h : b.bitMask.toNat / 64 < b.bits.length) :
    b.InRange := by
  intro src bit hbit
  have hle : bit.toNat ≤ b.bitMask.toNat := by
    simp only [bitsFor, List.mem_cons, List.not_mem_nil, or_false] at hbit
    rcases hbit with rfl | rfl | rfl <;> exact UInt64.toNat_and _ _ ▸ Nat.and_le_right
  rw [UInt64.toNat_div]
  exact (Nat.div_le_div_right hle).trans_lt h

/-- The empty filter that is sized for a number of sources. -/
def sized (count : Nat) : SourceBloom where
  bits := List.replicate ((nextPowerOfTwo (max count 4 * 16) + 63) / 64) 0
  bitMask := UInt64.ofNat (nextPowerOfTwo (max count 4 * 16) - 1)

theorem fromSources_eq (sources : List VertexId) :
    fromSources sources = sources.foldl insert (sized sources.length) := rfl

theorem nextPowerOfTwo_pos (n : Nat) : 0 < nextPowerOfTwo n := by
  rw [nextPowerOfTwo]
  split <;> positivity

theorem inRange_sized (count : Nat) : (sized count).InRange := by
  refine inRange_of_bitMask ?_
  have hpos := nextPowerOfTwo_pos (max count 4 * 16)
  have hle := Nat.mod_le (nextPowerOfTwo (max count 4 * 16) - 1) (2 ^ 64)
  rw [sized, List.length_replicate, UInt64.toNat_ofNat']
  omega

theorem InRange.foldl_insert {b : SourceBloom} (h : b.InRange) (sources : List VertexId) :
    (sources.foldl SourceBloom.insert b).InRange :=
  List.foldlRecOn sources _ h fun _ hb src _ => hb.insert src

/-- **No false negatives.** A filter built from sources contains each of them. -/
theorem mayContain_fromSources {sources : List VertexId} {src : VertexId} (h : src ∈ sources) :
    (fromSources sources).mayContain src = true := by
  rw [fromSources_eq]
  exact mayContain_foldl_insert (inRange_sized sources.length) (Or.inl h)

end SourceBloom

/-! ## Cached metadata -/

structure CachedCsrMetadata where
  header : CsrHeader
  offsets : List EdgeOffset
  srcFilter : SourceBloom
  deriving DecidableEq, Repr

namespace CachedCsrMetadata

def new (header : CsrHeader) (offsets : List EdgeOffset) : CachedCsrMetadata where
  header := header
  offsets := offsets
  srcFilter := SourceBloom.fromSources (offsets.map EdgeOffset.src)

def mayContainSrc (m : CachedCsrMetadata) (src : VertexId) : Bool := m.srcFilter.mayContain src

end CachedCsrMetadata

/-- The cache: a map bounded by `maxEntries` and the queue that decides evictions. -/
structure CsrMetadataCache where
  maxEntries : Nat
  map : AList fun _ : FileId => CachedCsrMetadata
  lru : List FileId

namespace CsrMetadataCache

def new (maxEntries : Nat) : CsrMetadataCache where
  maxEntries := max maxEntries 1
  map := ∅
  lru := []

/-- Look a file up; a hit is appended to the queue. -/
def get (c : CsrMetadataCache) (fileId : FileId) : Option CachedCsrMetadata × CsrMetadataCache :=
  match c.map.lookup fileId with
  | some value => (some value, { c with lru := c.lru ++ [fileId] })
  | none => (none, c)

/-- The eviction loop of `insert`: drop entries from the front of the queue while the map is full. -/
def evict (maxEntries : Nat) (fileId : FileId) (map : AList fun _ : FileId => CachedCsrMetadata) :
    List FileId → AList (fun _ : FileId => CachedCsrMetadata) × List FileId
  | [] => (map, [])
  | victim :: lru =>
      if maxEntries ≤ map.entries.length then
        evict maxEntries fileId (if victim ≠ fileId then map.erase victim else map) lru
      else (map, victim :: lru)

/-- Store the metadata of a file. -/
def insert (c : CsrMetadataCache) (fileId : FileId) (metadata : CachedCsrMetadata) :
    CsrMetadataCache :=
  let (map, lru) :=
    if fileId ∈ c.map then (c.map, c.lru) else evict c.maxEntries fileId c.map c.lru
  { c with map := map.insert fileId metadata, lru := lru ++ [fileId] }

/-- What the cached filter of a file says about a source; `none` when the file is not cached. -/
def cachedMayContainSrc (c : CsrMetadataCache) (fileId : FileId) (src : VertexId) :
    Option Bool × CsrMetadataCache :=
  let (metadata, c) := c.get fileId
  (metadata.map fun metadata => metadata.mayContainSrc src, c)

/-! ### What a lookup can find -/

theorem lookup_evict {maxEntries : Nat} {fileId : FileId}
    {map : AList fun _ : FileId => CachedCsrMetadata} {lru : List FileId} {id : FileId}
    {metadata : CachedCsrMetadata}
    (h : (evict maxEntries fileId map lru).1.lookup id = some metadata) :
    map.lookup id = some metadata := by
  induction lru generalizing map with
  | nil => exact h
  | cons victim lru ih =>
      rw [evict] at h
      split at h
      · have hmap := ih h
        split at hmap
        · by_cases hid : id = victim
          · rw [hid, AList.lookup_erase] at hmap
            exact absurd hmap (Option.some_ne_none _).symm
          · rwa [AList.lookup_erase_ne hid] at hmap
        · exact hmap
      · exact h

/-- After storing a file's metadata, a lookup finds it or what was cached before. -/
theorem lookup_insert {c : CsrMetadataCache} {fileId id : FileId}
    {metadata found : CachedCsrMetadata} (h : (c.insert fileId metadata).map.lookup id = some found) :
    id = fileId ∧ found = metadata ∨ c.map.lookup id = some found := by
  rw [insert] at h
  by_cases hid : id = fileId
  · subst hid
    refine Or.inl ⟨rfl, ?_⟩
    split at h
    simpa [AList.lookup_insert, eq_comm] using h
  · refine Or.inr ?_
    rw [AList.lookup_insert_ne hid] at h
    split at h
    · exact h
    · exact lookup_evict h

/-- A lookup changes the queue only. -/
@[simp] theorem map_get (c : CsrMetadataCache) (fileId : FileId) : (c.get fileId).2.map = c.map := by
  rw [get]
  split <;> rfl

@[simp] theorem get_fst (c : CsrMetadataCache) (fileId : FileId) :
    (c.get fileId).1 = c.map.lookup fileId := by
  rw [get]
  split <;> simp_all

end CsrMetadataCache

end LsmGraph
