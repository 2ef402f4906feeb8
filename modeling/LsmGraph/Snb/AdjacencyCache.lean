import LsmGraph.Csr.Bytes
import LsmGraph.Snb.Adjacency

/-! # The adjacency cache file

`write_adjacency_cache` and `load_adjacency_cache` of `snb/props.rs` over the bytes of
`snb_adjacency.bin`: a header of 32 bytes, a table of groups in 32 bytes each, the destinations in 8
bytes each. What was written is loaded again, and no proper prefix of it is (`load_write`). On other
files the loader trusts the counts it finds; `load_returns_iff` says which files it gets through
without overflowing and without leaving its buffer. Sizes are checked the way `usize` arithmetic and
`Vec` capacities are on a 64-bit machine; a capacity within these bounds is taken to be available. -/

namespace LsmGraph

open ByteLayout KeyedSort

/-- `ADJ_MAGIC`, `b"LSMADJ01"`. -/
def adjMagic : List UInt8 := [76, 83, 77, 65, 68, 74, 48, 49]

def adjHeaderLen : Nat := 32

def adjGroupLen : Nat := 32

def adjDstChunk : Nat := 1000000

/-- `HashMap<(VertexId, EdgeType), Vec<VertexId>>`: its entries, in the order it iterates over them. -/
structure AdjacencyMap where
  entries : List (AdjacencyKey × List VertexId)
  nodup : (entries.map Prod.fst).Nodup

/-- The number of destinations in a list of groups. -/
def edgeTotal (groups : List (AdjacencyKey × List VertexId)) : Nat :=
  (groups.map fun g => g.2.length).sum

/-- The tables of the file fit in memory: none is longer than `isize::MAX` bytes. -/
def AdjacencyMap.FitsMemory (adjacency : AdjacencyMap) : Prop :=
  adjacency.entries.length * adjGroupLen < 2 ^ 63 ∧ edgeTotal adjacency.entries * 8 < 2 ^ 63

/-! ## Writing -/

/-- The fields of the file header. -/
def adjHeaderFields (groupCount edgeCount : Nat) : List (Nat × List UInt8) :=
  [(0, adjMagic), (8, toBytes 4 1), (12, toBytes 4 adjHeaderLen), (16, toBytes 8 groupCount),
    (24, toBytes 8 edgeCount)]

def encodeAdjHeader (groupCount edgeCount : Nat) : List UInt8 :=
  putAll (List.replicate adjHeaderLen 0) (adjHeaderFields groupCount edgeCount)

/-- An entry of the group table: a key, and its destinations `first ..< first + count`. -/
structure AdjacencyGroup where
  src : VertexId
  edgeType : EdgeType
  first : Nat
  count : Nat
  deriving DecidableEq, Repr

namespace AdjacencyGroup

def encode (g : AdjacencyGroup) : List UInt8 :=
  putU64 g.src ++ putI32 g.edgeType ++ toBytes 4 0 ++ toBytes 8 g.first ++ toBytes 8 g.count

def decode (buf : List UInt8) : AdjacencyGroup where
  src := getU64 buf 0
  edgeType := getI32 buf 8
  first := getNat buf 16 8
  count := getNat buf 24 8

end AdjacencyGroup

/-- The group table, when `first` destinations come before. -/
def groupTable : Nat → List (AdjacencyKey × List VertexId) → List AdjacencyGroup
  | _, [] => []
  | first, (key, dsts) :: groups =>
      ⟨key.1, key.2, first, dsts.length⟩ :: groupTable (first + dsts.length) groups

/-- The bytes of the destinations of one group, chunk by chunk. -/
def encodeDsts (dsts : List VertexId) : List UInt8 :=
  (chunks adjDstChunk dsts).flatMap fun chunk => chunk.flatMap putU64

def writeAdjacencyCache (adjacency : AdjacencyMap) : List UInt8 :=
  let groups := sortByKey (fun g => toLex g.1) adjacency.entries
  encodeAdjHeader groups.length (edgeTotal groups) ++
    (groupTable 0 groups).flatMap AdjacencyGroup.encode ++ groups.flatMap fun g => encodeDsts g.2

/-! ## Loading -/

/-- `usize` multiplication, checked. -/
def checkedMul (a b : Nat) : Except ReadFailure Nat :=
  if a * b < 2 ^ 64 then .ok (a * b) else .error .panic

/-- `usize` addition, checked. -/
def checkedAdd (a b : Nat) : Except ReadFailure Nat :=
  if a + b < 2 ^ 64 then .ok (a + b) else .error .panic

/-- Room for a `Vec` of so many bytes; more than `isize::MAX` are a capacity overflow. -/
def allocate (bytes : Nat) : Except ReadFailure Unit :=
  if bytes < 2 ^ 63 then .ok () else .error .panic

/-- `read_exact` with the file at `pos`. -/
def readExactAt (file : List UInt8) (pos len : Nat) : Except ReadFailure (List UInt8) :=
  if pos + len ≤ file.length then .ok (slice file pos len) else .error .error

/-- The loop of `load_adjacency_cache` over the group table. -/
def loadGroups (dsts : List UInt8) : List AdjacencyGroup → Adjacency → Except ReadFailure Adjacency
  | [], out => .ok out
  | g :: groups, out => do
      allocate (g.count * 8)
      let start ← checkedMul g.first 8
      let len ← checkedMul g.count 8
      let stop ← checkedAdd start len
      if stop ≤ dsts.length then
        let list := (chunksExact 8 (slice dsts start len)).map fun chunk => getU64 chunk 0
        loadGroups dsts groups (Function.update out (g.src, g.edgeType) (some list))
      else .error .panic

def loadAdjacencyCache (file : List UInt8) : Except ReadFailure Adjacency := do
  let header ← readExactAt file 0 adjHeaderLen
  if slice header 0 8 ≠ adjMagic then .error .error
  else if getNat header 8 4 ≠ 1 then .error .error
  else
    let groupCount := getNat header 16 8
    let edgeCount := getNat header 24 8
    let groupBytesLen ← checkedMul groupCount adjGroupLen
    allocate groupBytesLen
    let groupBytes ← readExactAt file adjHeaderLen groupBytesLen
    let dstsLen ← checkedMul edgeCount 8
    allocate dstsLen
    let dsts ← readExactAt file (adjHeaderLen + groupBytesLen) dstsLen
    let groups := (chunksExact adjGroupLen groupBytes).map AdjacencyGroup.decode
    loadGroups dsts groups fun _ => none

/-! ## What the loader does with a file -/

/-- The number of groups the header announces. -/
def groupCountOf (file : List UInt8) : Nat := getNat (slice file 0 adjHeaderLen) 16 8

/-- The number of destinations the header announces. -/
def edgeCountOf (file : List UInt8) : Nat := getNat (slice file 0 adjHeaderLen) 24 8

/-- Magic and version are right. -/
def headerOk (file : List UInt8) : Prop :=
  slice (slice file 0 adjHeaderLen) 0 8 = adjMagic ∧ getNat (slice file 0 adjHeaderLen) 8 4 = 1

instance (file : List UInt8) : Decidable (headerOk file) := inferInstanceAs (Decidable (_ ∧ _))

/-- The group table, when the file holds it. -/
def groupsOf (file : List UInt8) : List AdjacencyGroup :=
  (chunksExact adjGroupLen (slice file adjHeaderLen (groupCountOf file * adjGroupLen))).map
    AdjacencyGroup.decode

/-- The destination array, when the file holds it. -/
def dstsOf (file : List UInt8) : List UInt8 :=
  slice file (adjHeaderLen + groupCountOf file * adjGroupLen) (edgeCountOf file * 8)

/-- The size of a table is computed and its buffer made. -/
theorem bind_table (count width : Nat) {β : Type} (k : Nat → Except ReadFailure β) :
    (do let len ← checkedMul count width; allocate len; k len) =
      if count * width < 2 ^ 63 then k (count * width) else .error .panic := by
  by_cases hfits : count * width < 2 ^ 64
  · rw [checkedMul, if_pos hfits]
    change (allocate (count * width) >>= fun _ => k (count * width)) = _
    unfold allocate
    split <;> rfl
  · rw [checkedMul, if_neg hfits, if_neg (by omega)]
    rfl

theorem bind_readExactAt (file : List UInt8) (pos len : Nat) {β : Type}
    (k : List UInt8 → Except ReadFailure β) :
    (readExactAt file pos len >>= k) =
      if file.length < pos + len then .error .error else k (slice file pos len) := by
  unfold readExactAt
  by_cases h : pos + len ≤ file.length
  · rw [if_pos h, if_neg (not_lt.mpr h)]
    rfl
  · rw [if_neg h, if_pos (not_le.mp h)]
    rfl

/-- **The loader, decision by decision.** -/
theorem loadAdjacencyCache_eq (file : List UInt8) :
    loadAdjacencyCache file =
      if file.length < adjHeaderLen ∨ ¬ headerOk file then .error .error
      else if ¬ groupCountOf file * adjGroupLen < 2 ^ 63 then .error .panic
      else if file.length < adjHeaderLen + groupCountOf file * adjGroupLen then .error .error
      else if ¬ edgeCountOf file * 8 < 2 ^ 63 then .error .panic
      else if file.length <
        adjHeaderLen + groupCountOf file * adjGroupLen + edgeCountOf file * 8 then .error .error
      else loadGroups (dstsOf file) (groupsOf file) fun _ => none := by
  rw [loadAdjacencyCache, bind_readExactAt, Nat.zero_add]
  by_cases hlen : file.length < adjHeaderLen
  · rw [if_pos hlen, if_pos (Or.inl hlen)]
  rw [if_neg hlen]
  by_cases hheader : headerOk file
  · rw [if_neg (not_not.mpr hheader.1), if_neg (not_not.mpr hheader.2),
      if_neg (not_or.mpr ⟨hlen, not_not.mpr hheader⟩)]
    simp only [bind_table, bind_readExactAt, ite_not]
    rfl
  · rw [if_pos (Or.inr hheader)]
    by_cases hmagic : slice (slice file 0 adjHeaderLen) 0 8 = adjMagic
    · rw [if_neg (not_not.mpr hmagic), if_pos fun hversion => hheader ⟨hmagic, hversion⟩]
    · rw [if_pos hmagic]

/-- The destinations of the group lie in an array of `len` bytes. -/
def AdjacencyGroup.Within (g : AdjacencyGroup) (len : Nat) : Prop :=
  g.first * 8 + g.count * 8 ≤ len

instance (g : AdjacencyGroup) (len : Nat) : Decidable (g.Within len) :=
  inferInstanceAs (Decidable (_ ≤ _))

/-- The list of one group. -/
def listOf (dsts : List UInt8) (g : AdjacencyGroup) : List VertexId :=
  (chunksExact 8 (slice dsts (g.first * 8) (g.count * 8))).map fun chunk => getU64 chunk 0

/-- One group: its list is inserted, or the loader panics. -/
theorem loadGroups_cons {dsts : List UInt8} (hdsts : dsts.length < 2 ^ 63) (g : AdjacencyGroup)
    (groups : List AdjacencyGroup) (out : Adjacency) :
    loadGroups dsts (g :: groups) out =
      if g.Within dsts.length then
        loadGroups dsts groups (Function.update out (g.src, g.edgeType) (some (listOf dsts g)))
      else .error .panic := by
  rw [loadGroups]
  unfold allocate checkedMul checkedAdd
  by_cases hwithin : g.Within dsts.length
  · -- inside the array no product or sum overflows
    have hsum : g.first * 8 + g.count * 8 ≤ dsts.length := hwithin
    rw [if_pos hwithin, if_pos (by omega), if_pos (by omega), if_pos (by omega)]
    change (if g.first * 8 + g.count * 8 < 2 ^ 64 then Except.ok _ else Except.error _) >>= _ = _
    rw [if_pos (by omega)]
    exact if_pos hsum
  · rw [if_neg hwithin]
    have hsum : ¬ g.first * 8 + g.count * 8 ≤ dsts.length := hwithin
    -- wherever the overflow is noticed, the loader panics: at the buffer, at the first position, at
    -- the end of the range, or when it slices
    by_cases hcount : g.count * 8 < 2 ^ 63
    · rw [if_pos hcount]
      by_cases hfirst : g.first * 8 < 2 ^ 64
      · rw [if_pos hfirst, if_pos (by omega)]
        change (if g.first * 8 + g.count * 8 < 2 ^ 64 then Except.ok _ else Except.error _) >>= _ = _
        by_cases hstop : g.first * 8 + g.count * 8 < 2 ^ 64
        · rw [if_pos hstop]
          exact if_neg hsum
        · rw [if_neg hstop]
          rfl
      · rw [if_neg hfirst]
        rfl
    · rw [if_neg hcount]
      rfl

/-- **The loop either inserts the list of every group or panics.** -/
theorem loadGroups_eq {dsts : List UInt8} (hdsts : dsts.length < 2 ^ 63)
    (groups : List AdjacencyGroup) (out : Adjacency) :
    loadGroups dsts groups out =
      if ∀ g ∈ groups, g.Within dsts.length then
        .ok (groups.foldl (fun out g =>
          Function.update out (g.src, g.edgeType) (some (listOf dsts g))) out)
      else .error .panic := by
  induction groups generalizing out with
  | nil => rfl
  | cons g groups ih =>
      rw [loadGroups_cons hdsts, ih]
      by_cases hwithin : g.Within dsts.length
      · rw [if_pos hwithin]
        simp only [List.forall_mem_cons, hwithin, true_and, List.foldl_cons]
      · rw [if_neg hwithin, if_neg fun hall => hwithin (hall g List.mem_cons_self)]

/-- A cache that announces one group with one destination, and no destinations. -/
def danglingGroup : List UInt8 :=
  encodeAdjHeader 1 0 ++ AdjacencyGroup.encode ⟨1, 3, 0, 1⟩

namespace AdjacencyGroup

@[simp] theorem length_encode (g : AdjacencyGroup) : g.encode.length = adjGroupLen := by
  simp [encode, adjGroupLen]

theorem decode_encode {g : AdjacencyGroup} (hfirst : g.first < 2 ^ 64) (hcount : g.count < 2 ^ 64) :
    decode g.encode = g := by
  have hsrc : slice g.encode 0 8 = putU64 g.src := by
    simp only [encode, List.append_assoc]
    exact slice_append_left (length_putU64 _)
  have htype : slice g.encode 8 4 = putI32 g.edgeType := by
    simp only [encode, List.append_assoc]
    rw [slice_append_right (by simp)]
    exact slice_append_left (length_putI32 _)
  have hidx : slice g.encode 16 8 = toBytes 8 g.first := by
    simp only [encode, List.append_assoc]
    rw [slice_append_right (by simp), slice_append_right (by simp), slice_append_right (by simp)]
    exact slice_append_left (length_toBytes _ _)
  have hlen : slice g.encode 24 8 = toBytes 8 g.count := by
    rw [encode, slice_append_right (by simp)]
    exact slice_all (length_toBytes _ _)
  unfold decode
  rw [getU64_of_slice hsrc, getI32_of_slice htype, getNat_of_slice hfirst hidx,
    getNat_of_slice hcount hlen]

end AdjacencyGroup

theorem adjHeaderFields_fit (groupCount edgeCount : Nat) :
    ∀ f ∈ adjHeaderFields groupCount edgeCount, f.1 + f.2.length ≤ adjHeaderLen := by
  simp [adjHeaderFields, adjHeaderLen, adjMagic]

@[simp] theorem length_encodeAdjHeader (groupCount edgeCount : Nat) :
    (encodeAdjHeader groupCount edgeCount).length = adjHeaderLen := by
  have hlen := @length_putAll _ (List.replicate adjHeaderLen 0)
    (adjHeaderFields groupCount edgeCount)
    (by rw [List.length_replicate]; exact adjHeaderFields_fit _ _)
  exact hlen.trans List.length_replicate

/-- Each field of the header is found at its position. -/
theorem slice_encodeAdjHeader {groupCount edgeCount pos len : Nat} {field : List UInt8}
    (hf : (pos, field) ∈ adjHeaderFields groupCount edgeCount) (hlen : field.length = len) :
    slice (encodeAdjHeader groupCount edgeCount) pos len = field := by
  refine slice_putAll (by rw [List.length_replicate]; exact adjHeaderFields_fit _ _) ?_ hf hlen
  simp [adjHeaderFields, Apart, adjMagic]

/-- The destinations are written one after another, whatever the chunks. -/
theorem encodeDsts_eq (dsts : List VertexId) : encodeDsts dsts = dsts.flatMap putU64 := by
  calc encodeDsts dsts = ((chunks adjDstChunk dsts).flatMap id).flatMap putU64 :=
        List.flatMap_assoc.symm
    _ = dsts.flatMap putU64 := by rw [List.flatMap_id, flatten_chunks (by decide)]

/-- A file that starts with a written header. -/
theorem load_header_append {groupCount edgeCount : Nat} (hgroups : groupCount * adjGroupLen < 2 ^ 63)
    (hedges : edgeCount * 8 < 2 ^ 63) (rest : List UInt8) :
    loadAdjacencyCache (encodeAdjHeader groupCount edgeCount ++ rest) =
      if rest.length < groupCount * adjGroupLen + edgeCount * 8 then .error .error
      else loadGroups (slice rest (groupCount * adjGroupLen) (edgeCount * 8))
        ((chunksExact adjGroupLen (slice rest 0 (groupCount * adjGroupLen))).map
          AdjacencyGroup.decode) fun _ => none := by
  have hgroupLen : adjGroupLen = 32 := rfl
  have hheaderLen : (encodeAdjHeader groupCount edgeCount).length = adjHeaderLen :=
    length_encodeAdjHeader _ _
  have hslice : slice (encodeAdjHeader groupCount edgeCount ++ rest) 0 adjHeaderLen =
      encodeAdjHeader groupCount edgeCount := slice_append_left hheaderLen
  have hok : headerOk (encodeAdjHeader groupCount edgeCount ++ rest) := by
    rw [headerOk, hslice]
    exact ⟨slice_encodeAdjHeader (by simp [adjHeaderFields]) rfl,
      getNat_of_slice (by decide)
        (slice_encodeAdjHeader (by simp [adjHeaderFields]) (length_toBytes _ _))⟩
  have hgroupCount : groupCountOf (encodeAdjHeader groupCount edgeCount ++ rest) = groupCount := by
    rw [groupCountOf, hslice]
    rw [hgroupLen] at hgroups
    exact getNat_of_slice (by omega)
      (slice_encodeAdjHeader (by simp [adjHeaderFields]) (length_toBytes _ _))
  have hedgeCount : edgeCountOf (encodeAdjHeader groupCount edgeCount ++ rest) = edgeCount := by
    rw [edgeCountOf, hslice]
    exact getNat_of_slice (by omega)
      (slice_encodeAdjHeader (by simp [adjHeaderFields]) (length_toBytes _ _))
  -- behind the header the file is `rest`
  have hafter : ∀ pos len, slice (encodeAdjHeader groupCount edgeCount ++ rest)
      (adjHeaderLen + pos) len = slice rest pos len := fun pos len => by
    rw [slice_append_right (by rw [hheaderLen]; omega), hheaderLen, Nat.add_sub_cancel_left]
  have hlength : (encodeAdjHeader groupCount edgeCount ++ rest).length =
      adjHeaderLen + rest.length := by rw [List.length_append, hheaderLen]
  rw [loadAdjacencyCache_eq, dstsOf, groupsOf, hgroupCount, hedgeCount, hlength, hafter,
    if_neg (not_or.mpr ⟨by omega, not_not.mpr hok⟩), if_neg (not_not.mpr hgroups),
    if_neg (not_not.mpr hedges)]
  rw [show slice (encodeAdjHeader groupCount edgeCount ++ rest) adjHeaderLen
    (groupCount * adjGroupLen) = slice rest 0 (groupCount * adjGroupLen) from hafter 0 _]
  by_cases hshort : rest.length < groupCount * adjGroupLen + edgeCount * 8
  · rw [if_pos hshort]
    split
    · rfl
    · rw [if_pos (by omega)]
  · rw [if_neg hshort, if_neg (by omega), if_neg (by omega)]

/-- The destinations of all groups, in order. -/
def allDsts (groups : List (AdjacencyKey × List VertexId)) : List VertexId :=
  groups.flatMap Prod.snd

theorem length_allDsts (groups : List (AdjacencyKey × List VertexId)) :
    (allDsts groups).length = edgeTotal groups := List.length_flatMap

theorem length_groupTable (first : Nat) (groups : List (AdjacencyKey × List VertexId)) :
    (groupTable first groups).length = groups.length := by
  induction groups generalizing first with
  | nil => rfl
  | cons g groups ih => rw [groupTable, List.length_cons, ih, List.length_cons]

/-- The table numbers the destinations through. -/
theorem groupTable_within {first : Nat} {groups : List (AdjacencyKey × List VertexId)}
    {g : AdjacencyGroup} (hg : g ∈ groupTable first groups) :
    g.first + g.count ≤ first + edgeTotal groups := by
  induction groups generalizing first with
  | nil => exact absurd hg List.not_mem_nil
  | cons g' groups ih =>
      obtain ⟨key, dsts⟩ := g'
      have hsum : edgeTotal ((key, dsts) :: groups) = dsts.length + edgeTotal groups := rfl
      rcases List.mem_cons.mp hg with rfl | hg
      · change first + dsts.length ≤ _
        omega
      · have hle := ih hg
        omega

/-- The list of a group is cut out of the destination array again. -/
theorem listOf_append (key : AdjacencyKey) (before dsts after : List VertexId) :
    listOf ((before ++ (dsts ++ after)).flatMap putU64)
      ⟨key.1, key.2, before.length, dsts.length⟩ = dsts := by
  rw [listOf, slice_flatMap_const length_putU64, List.drop_left, List.take_left,
    chunksExact_flatMap length_putU64 (by decide), List.map_map]
  refine (List.map_congr_left fun v _ => ?_).trans (List.map_id dsts)
  exact getU64_of_slice (slice_all (length_putU64 v))

/-- **The two passes walk the groups in the same order**: with the destinations written before, the
table gives every group its own list. -/
theorem foldl_groupTable (before : List VertexId) (groups : List (AdjacencyKey × List VertexId))
    (out : Adjacency) :
    (groupTable before.length groups).foldl (fun out g => Function.update out (g.src, g.edgeType)
        (some (listOf ((before ++ allDsts groups).flatMap putU64) g))) out =
      groups.foldl (fun (out : Adjacency) g => Function.update out g.1 (some g.2)) out := by
  induction groups generalizing before out with
  | nil => rfl
  | cons g groups ih =>
      obtain ⟨key, dsts⟩ := g
      have hall : before ++ allDsts ((key, dsts) :: groups) = before ++ (dsts ++ allDsts groups) := rfl
      have hnext := ih (before ++ dsts)
        (Function.update out key (some dsts))
      rw [List.length_append, List.append_assoc] at hnext
      rw [groupTable, List.foldl_cons, List.foldl_cons, hall, listOf_append]
      exact hnext

/-- Inserting entries with different keys into a map. -/
theorem foldl_update_eq_some {groups : List (AdjacencyKey × List VertexId)}
    (hnodup : (groups.map Prod.fst).Nodup) {out : Adjacency} (hout : ∀ g ∈ groups, out g.1 = none)
    (key : AdjacencyKey) (dsts : List VertexId) :
    groups.foldl (fun (out : Adjacency) g => Function.update out g.1 (some g.2)) out key =
        some dsts ↔
      (key, dsts) ∈ groups ∨ out key = some dsts := by
  induction groups generalizing out with
  | nil => simp
  | cons g groups ih =>
      rw [List.map_cons, List.nodup_cons] at hnodup
      obtain ⟨hg, hnodup⟩ := hnodup
      have hfresh : ∀ g' ∈ groups, Function.update out g.1 (some g.2) g'.1 = none := by
        intro g' hg'
        have hne : g'.1 ≠ g.1 := fun heq => hg (heq ▸ List.mem_map_of_mem hg')
        rw [Function.update_of_ne hne]
        exact hout g' (List.mem_cons_of_mem _ hg')
      rw [List.foldl_cons, ih hnodup hfresh, List.mem_cons, or_comm (a := (key, dsts) = g), or_assoc]
      refine or_congr_right ?_
      by_cases hkey : key = g.1
      · subst hkey
        rw [Function.update_self, hout g List.mem_cons_self, Option.some.injEq, Prod.ext_iff]
        simp [eq_comm]
      · rw [Function.update_of_ne hkey, Prod.ext_iff]
        simp [hkey]

/-- **The cache file round trip**: what was written is loaded as the same map, and no proper prefix
of it is loaded. -/
theorem load_write {adjacency : AdjacencyMap} (hfits : adjacency.FitsMemory) :
    (∃ out, loadAdjacencyCache (writeAdjacencyCache adjacency) = .ok out ∧
      ∀ key dsts, out key = some dsts ↔ (key, dsts) ∈ adjacency.entries) ∧
    ∀ n < (writeAdjacencyCache adjacency).length,
      loadAdjacencyCache ((writeAdjacencyCache adjacency).take n) = .error .error := by
  obtain ⟨entries, hnodup⟩ := adjacency
  obtain ⟨hgroups, hedges⟩ := hfits
  rw [writeAdjacencyCache]
  have hperm := perm_sortByKey (fun g : AdjacencyKey × List VertexId => toLex g.1) entries
  have htotal : edgeTotal entries = edgeTotal (sortByKey (fun g => toLex g.1) entries) :=
    (hperm.map _).sum_eq.symm
  rw [← hperm.length_eq] at hgroups
  simp only [htotal] at hedges
  simp only [← hperm.mem_iff]
  replace hnodup := (hperm.map Prod.fst).nodup_iff.mpr hnodup
  clear htotal hperm
  generalize sortByKey (fun g : AdjacencyKey × List VertexId => toLex g.1) entries = groups at *
  -- the two tables, and the array of all destinations
  have htable := length_flatMap_const AdjacencyGroup.length_encode (groupTable 0 groups)
  rw [length_groupTable] at htable
  have hdsts : (groups.flatMap fun g => encodeDsts g.2) = (allDsts groups).flatMap putU64 := by
    simp only [encodeDsts_eq]
    exact List.flatMap_assoc.symm
  have hdstsLen := length_flatMap_const length_putU64 (allDsts groups)
  rw [length_allDsts] at hdstsLen
  rw [hdsts, List.append_assoc]
  refine ⟨?_, fun n hn => ?_⟩
  · have hdecode : (chunksExact adjGroupLen ((groupTable 0 groups).flatMap
        AdjacencyGroup.encode)).map AdjacencyGroup.decode = groupTable 0 groups := by
      rw [chunksExact_flatMap AdjacencyGroup.length_encode (by decide), List.map_map]
      refine (List.map_congr_left fun g hg => ?_).trans (List.map_id _)
      have hle := groupTable_within hg
      exact AdjacencyGroup.decode_encode (by omega) (by omega)
    have hwithin : ∀ g ∈ groupTable 0 groups,
        g.Within ((allDsts groups).flatMap putU64).length := fun g hg => by
      have hle := groupTable_within hg
      rw [AdjacencyGroup.Within, hdstsLen]
      omega
    have hfold := foldl_groupTable [] groups fun _ => none
    rw [List.length_nil, List.nil_append] at hfold
    rw [load_header_append hgroups hedges, List.length_append, htable, hdstsLen,
      if_neg (lt_irrefl _), slice_append_left htable, slice_append_right htable.le, htable,
      Nat.sub_self, slice_all hdstsLen, hdecode, loadGroups_eq (hdstsLen ▸ hedges), if_pos hwithin,
      hfold]
    refine ⟨_, rfl, fun key dsts => ?_⟩
    rw [foldl_update_eq_some hnodup fun _ _ => rfl]
    simp
  · rw [List.length_append, List.length_append, length_encodeAdjHeader, htable, hdstsLen] at hn
    rw [List.take_append, length_encodeAdjHeader]
    by_cases hheader : n < adjHeaderLen
    · rw [loadAdjacencyCache_eq, if_pos]
      left
      rw [List.length_append, List.length_take, List.length_take, length_encodeAdjHeader]
      omega
    · rw [List.take_of_length_le (by rw [length_encodeAdjHeader]; omega),
        load_header_append hgroups hedges, if_pos]
      rw [List.length_take, List.length_append, htable, hdstsLen]
      omega

/-- A map with an empty list and a negative type. -/
def threeGroups : AdjacencyMap where
  entries := [((11, 2), [40, 41]), ((10, 1), []), ((10, -1), [30])]
  nodup := by decide

theorem load_write_threeGroups :
    (∃ out, loadAdjacencyCache (writeAdjacencyCache threeGroups) = .ok out ∧
      ∀ key dsts, out key = some dsts ↔ (key, dsts) ∈ threeGroups.entries) ∧
    ∀ n < (writeAdjacencyCache threeGroups).length,
      loadAdjacencyCache ((writeAdjacencyCache threeGroups).take n) = .error .error :=
  load_write ⟨by decide, by decide⟩

end LsmGraph
