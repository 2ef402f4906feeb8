import LsmGraph.Csr.Format
import LsmGraph.Library.KeyedSort
import Mathlib.Data.List.GetD
import Mathlib.Data.Set.Function

/-! # Versions

A `Version` lists the memgraphs and, level by level, the segment files a reader has to look at
(`version.rs`, `levels.rs`). Every operation that publishes a version computes it from one it has
pinned: a rotation, a flush, a partial compaction and a full compaction. Those four functions are
here, free of the engine state, so that the single-client engine and the concurrent one share them;
each comes with a lemma that says what its levels hold. Memgraphs are referred to by their id. -/

namespace LsmGraph

open KeyedSort

abbrev MemGraphId := Nat

def L0 : LevelId := 0

def L1 : LevelId := 1

structure Version where
  id : Nat
  memgraphs : List MemGraphId
  levels : List (List CsrSegmentMeta)
  deriving DecidableEq, Repr

/-- Append empty levels until the level exists. -/
def ensureLevel (levels : List (List CsrSegmentMeta)) (level : LevelId) :
    List (List CsrSegmentMeta) :=
  levels ++ List.replicate (level.toNat + 1 - levels.length) []

/-- Sort order inside a level. -/
def levelKey (m : CsrSegmentMeta) : Int32 ×ₗ EdgeType ×ₗ VertexId ×ₗ FileId :=
  toLex (m.srcLabel, toLex (m.edgeTypePartition, toLex (m.minSrc, m.fileId)))

def sortLevel (level : List CsrSegmentMeta) : List CsrSegmentMeta := sortByKey levelKey level

/-- Sort order inside a level after `open`. -/
def splitKey (m : CsrSegmentMeta) : VertexId ×ₗ FileId := toLex (m.minSrc, m.fileId)

/-- Distribute live files over the levels; at least two levels exist. -/
def splitLevels (files : List CsrSegmentMeta) (maxLevels : Nat) : List (List CsrSegmentMeta) :=
  let levels := files.foldl
    (fun levels file => (ensureLevel levels file.level).modify file.level.toNat (· ++ [file]))
    (List.replicate (max maxLevels 2) [])
  levels.map (sortByKey splitKey)

namespace Version

/-- The files of one level. -/
def level (v : Version) (i : Nat) : List CsrSegmentMeta := v.levels.getD i []

/-- The files of all levels. -/
def files (v : Version) : List CsrSegmentMeta := v.levels.flatten

/-- The files of the levels from `L1` on. -/
def upperFiles (v : Version) : List CsrSegmentMeta := (v.levels.drop 1).flatten

/-- What a rotation publishes. -/
def rotate (old : Version) (newActive : MemGraphId) : Version where
  id := old.id + 1
  memgraphs := newActive :: old.memgraphs
  levels := old.levels

/-- What the flush of a memgraph publishes. -/
def afterFlush (old : Version) (memgraph : MemGraphId) (metas : List CsrSegmentMeta) : Version where
  id := old.id + 1
  memgraphs := old.memgraphs.filter fun m => m ≠ memgraph
  levels := (ensureLevel old.levels L0).modify 0 fun level => sortLevel (level ++ metas)

/-- What a partial compaction publishes. -/
def afterTargetCompaction (old : Version) (selectedL0 selectedL1 outputs : List CsrSegmentMeta) :
    Version where
  id := old.id + 1
  memgraphs := old.memgraphs
  levels :=
    let selectedL0Ids := selectedL0.map CsrSegmentMeta.fileId
    let selectedL1Ids := selectedL1.map CsrSegmentMeta.fileId
    let levels := ensureLevel old.levels L1
    let levels := levels.modify 0 fun level =>
      sortLevel (level.filter fun m => m.fileId ∉ selectedL0Ids)
    levels.modify 1 fun level =>
      sortLevel ((level.filter fun m => m.fileId ∉ selectedL1Ids) ++ outputs)

/-- What a full compaction publishes: it clears both levels, whatever they hold by now, before it
pushes its output. -/
def afterFullCompaction (old : Version) (outputs : List CsrSegmentMeta) : Version where
  id := old.id + 1
  memgraphs := old.memgraphs
  levels :=
    let levels := ensureLevel old.levels L1
    let levels := levels.modify 0 fun _ => []
    levels.modify 1 fun _ => sortLevel outputs

end Version

/-! ## What the levels hold -/

section Levels

variable {levels : List (List CsrSegmentMeta)} {f : List CsrSegmentMeta → List CsrSegmentMeta}

/-- Empty levels at the end change no level. -/
@[simp] theorem getD_ensureLevel (levels : List (List CsrSegmentMeta)) (level : LevelId) (i : Nat) :
    (ensureLevel levels level).getD i [] = levels.getD i [] := by
  rw [ensureLevel]
  rcases lt_or_ge i levels.length with h | h
  · rw [List.getD_append _ _ _ _ h]
  · rw [List.getD_append_right _ _ _ _ h, List.getD_eq_default _ _ h]
    rcases lt_or_ge (i - levels.length) (level.toNat + 1 - levels.length) with h' | h'
    · exact List.getD_replicate _ h'
    · exact List.getD_eq_default _ _ (by rwa [List.length_replicate])

theorem lt_length_ensureLevel (levels : List (List CsrSegmentMeta)) (level : LevelId) :
    level.toNat < (ensureLevel levels level).length := by
  rw [ensureLevel, List.length_append, List.length_replicate]
  omega

theorem getD_modify_self {i : Nat} (h : i < levels.length) :
    (levels.modify i f).getD i [] = f (levels.getD i []) := by
  rw [List.getD_eq_getElem?_getD, List.getElem?_modify, List.getD_eq_getElem?_getD,
    List.getElem?_eq_getElem h]
  simp

theorem getD_modify_of_ne {i j : Nat} (h : i ≠ j) :
    (levels.modify i f).getD j [] = levels.getD j [] := by
  rw [List.getD_eq_getElem?_getD, List.getElem?_modify, List.getD_eq_getElem?_getD]
  simp [h]

end Levels

@[simp] theorem mem_sortLevel {level : List CsrSegmentMeta} {m : CsrSegmentMeta} :
    m ∈ sortLevel level ↔ m ∈ level := mem_sortByKey

namespace Version

variable {v : Version} {m : CsrSegmentMeta} {i : Nat}

/-- A file of a version is a file of one of its levels. -/
theorem mem_files : m ∈ v.files ↔ ∃ i, m ∈ v.level i := by
  rw [files, List.mem_flatten]
  constructor
  · rintro ⟨level, hlevel, hm⟩
    obtain ⟨i, hi, rfl⟩ := List.mem_iff_getElem.mp hlevel
    exact ⟨i, by rwa [Version.level, List.getD_eq_getElem _ _ hi]⟩
  · rintro ⟨i, hm⟩
    rw [Version.level] at hm
    by_cases hi : i < v.levels.length
    · rw [List.getD_eq_getElem _ _ hi] at hm
      exact ⟨_, List.getElem_mem hi, hm⟩
    · rw [List.getD_eq_default _ _ (not_lt.mp hi)] at hm
      exact absurd hm List.not_mem_nil

/-- A file of the upper part is a file of some level from `L1` on. -/
theorem mem_upperFiles : m ∈ v.upperFiles ↔ ∃ i, m ∈ v.level (i + 1) := by
  have h := mem_files (v := { v with levels := v.levels.drop 1 }) (m := m)
  simpa [files, upperFiles, level, List.getD_eq_getElem?_getD, Nat.add_comm] using h

/-- The files of a version are those of `L0` and those of the upper part. -/
theorem mem_files_iff : m ∈ v.files ↔ m ∈ v.level 0 ∨ m ∈ v.upperFiles := by
  rw [mem_files, mem_upperFiles]
  constructor
  · rintro ⟨i, hm⟩
    cases i with
    | zero => exact Or.inl hm
    | succ i => exact Or.inr ⟨i, hm⟩
  · rintro (hm | ⟨i, hm⟩)
    · exact ⟨0, hm⟩
    · exact ⟨i + 1, hm⟩

/-- A flush adds its files to `L0`. -/
theorem level_zero_afterFlush (v : Version) (memgraph : MemGraphId) (metas : List CsrSegmentMeta) :
    (v.afterFlush memgraph metas).level 0 = sortLevel (v.level 0 ++ metas) := by
  have h : 0 < (ensureLevel v.levels L0).length := lt_length_ensureLevel v.levels L0
  rw [level, afterFlush, getD_modify_self h, getD_ensureLevel]
  rfl

/-- A flush leaves the upper levels alone. -/
theorem level_succ_afterFlush (v : Version) (memgraph : MemGraphId) (metas : List CsrSegmentMeta)
    (i : Nat) : (v.afterFlush memgraph metas).level (i + 1) = v.level (i + 1) := by
  rw [level, afterFlush, getD_modify_of_ne (Nat.succ_ne_zero i).symm, getD_ensureLevel]
  rfl

section Target

variable (v) (selectedL0 selectedL1 outputs : List CsrSegmentMeta)

theorem level_zero_afterTargetCompaction :
    (v.afterTargetCompaction selectedL0 selectedL1 outputs).level 0 =
      sortLevel ((v.level 0).filter fun m => m.fileId ∉ selectedL0.map CsrSegmentMeta.fileId) := by
  have h : 0 < (ensureLevel v.levels L1).length :=
    Nat.zero_lt_of_lt (lt_length_ensureLevel v.levels L1)
  rw [level, afterTargetCompaction, getD_modify_of_ne Nat.one_ne_zero, getD_modify_self h,
    getD_ensureLevel]
  rfl

theorem level_one_afterTargetCompaction :
    (v.afterTargetCompaction selectedL0 selectedL1 outputs).level 1 =
      sortLevel (((v.level 1).filter fun m => m.fileId ∉ selectedL1.map CsrSegmentMeta.fileId) ++
        outputs) := by
  have h : 1 < (ensureLevel v.levels L1).length := lt_length_ensureLevel v.levels L1
  rw [level, afterTargetCompaction, getD_modify_self (by rwa [List.length_modify]),
    getD_modify_of_ne Nat.zero_ne_one, getD_ensureLevel]
  rfl

theorem level_add_two_afterTargetCompaction (i : Nat) :
    (v.afterTargetCompaction selectedL0 selectedL1 outputs).level (i + 2) = v.level (i + 2) := by
  rw [level, afterTargetCompaction, getD_modify_of_ne (by omega), getD_modify_of_ne (by omega),
    getD_ensureLevel]
  rfl

end Target

theorem level_zero_afterFullCompaction (v : Version) (outputs : List CsrSegmentMeta) :
    (v.afterFullCompaction outputs).level 0 = [] := by
  have h : 0 < (ensureLevel v.levels L1).length :=
    Nat.zero_lt_of_lt (lt_length_ensureLevel v.levels L1)
  rw [level, afterFullCompaction, getD_modify_of_ne Nat.one_ne_zero, getD_modify_self h]

theorem level_one_afterFullCompaction (v : Version) (outputs : List CsrSegmentMeta) :
    (v.afterFullCompaction outputs).level 1 = sortLevel outputs := by
  have h : 1 < (ensureLevel v.levels L1).length := lt_length_ensureLevel v.levels L1
  rw [level, afterFullCompaction, getD_modify_self (by rwa [List.length_modify])]

theorem level_add_two_afterFullCompaction (v : Version) (outputs : List CsrSegmentMeta) (i : Nat) :
    (v.afterFullCompaction outputs).level (i + 2) = v.level (i + 2) := by
  rw [level, afterFullCompaction, getD_modify_of_ne (by omega), getD_modify_of_ne (by omega),
    getD_ensureLevel]
  rfl

end Version

namespace Version

variable {v : Version} {m : CsrSegmentMeta}

/-- The files after a flush. -/
theorem mem_files_afterFlush {memgraph : MemGraphId} {metas : List CsrSegmentMeta} :
    m ∈ (v.afterFlush memgraph metas).files ↔ m ∈ v.files ∨ m ∈ metas := by
  simp only [mem_files_iff, mem_upperFiles, level_zero_afterFlush, level_succ_afterFlush,
    mem_sortLevel, List.mem_append, or_right_comm]

/-- A file of a version lies in `L0`, in `L1` or higher up. -/
theorem mem_files_levels :
    m ∈ v.files ↔ m ∈ v.level 0 ∨ m ∈ v.level 1 ∨ ∃ i, m ∈ v.level (i + 2) := by
  rw [mem_files]
  constructor
  · rintro ⟨i, hm⟩
    match i, hm with
    | 0, hm => exact Or.inl hm
    | 1, hm => exact Or.inr (Or.inl hm)
    | i + 2, hm => exact Or.inr (Or.inr ⟨i, hm⟩)
  · rintro (hm | hm | ⟨i, hm⟩)
    · exact ⟨0, hm⟩
    · exact ⟨1, hm⟩
    · exact ⟨i + 2, hm⟩

end Version

/-! ## Files on their levels -/

namespace Version

variable {v : Version} {m : CsrSegmentMeta} {K K' : Set CsrSegmentMeta}

/-- Every file of the version is one of `K`, and lies on its level. -/
def Placed (K : Set CsrSegmentMeta) (v : Version) : Prop :=
  ∀ i, ∀ m ∈ v.level i, m ∈ K ∧ m.level.toNat = i

theorem Placed.mono (h : v.Placed K) (hsub : K ⊆ K') : v.Placed K' := fun i m hm =>
  ⟨hsub (h i m hm).1, (h i m hm).2⟩

theorem Placed.mem (h : v.Placed K) (hm : m ∈ v.files) : m ∈ K := by
  obtain ⟨i, hm⟩ := mem_files.mp hm
  exact (h i m hm).1

/-- A file of a version is on the level it belongs to. -/
theorem Placed.mem_level_iff (h : v.Placed K) {i : Nat} :
    m ∈ v.level i ↔ m ∈ v.files ∧ m.level.toNat = i := by
  constructor
  · exact fun hm => ⟨mem_files.mpr ⟨i, hm⟩, (h i m hm).2⟩
  · rintro ⟨hm, hi⟩
    obtain ⟨j, hm⟩ := mem_files.mp hm
    rwa [← hi, (h j m hm).2]

/-- The files of a flush lie in `L0`. -/
theorem Placed.afterFlush (h : v.Placed K) {memgraph : MemGraphId} {metas : List CsrSegmentMeta}
    (hmetas : ∀ x ∈ metas, x ∈ K ∧ x.level = L0) : (v.afterFlush memgraph metas).Placed K := by
  intro i x hx
  cases i with
  | zero =>
      rw [level_zero_afterFlush, mem_sortLevel, List.mem_append] at hx
      rcases hx with hx | hx
      · exact h 0 x hx
      · exact ⟨(hmetas x hx).1, congrArg UInt8.toNat (hmetas x hx).2⟩
  | succ i =>
      rw [level_succ_afterFlush] at hx
      exact h (i + 1) x hx

section Compaction

variable {selectedL0 selectedL1 outputs : List CsrSegmentMeta}

/-- The outputs of a compaction lie in `L1`. -/
theorem Placed.afterTargetCompaction (h : v.Placed K) (houtputs : ∀ x ∈ outputs, x ∈ K ∧ x.level = L1) :
    (v.afterTargetCompaction selectedL0 selectedL1 outputs).Placed K := by
  intro i x hx
  match i, hx with
  | 0, hx =>
      rw [level_zero_afterTargetCompaction, mem_sortLevel] at hx
      exact h 0 x (List.mem_of_mem_filter hx)
  | 1, hx =>
      rw [level_one_afterTargetCompaction, mem_sortLevel, List.mem_append] at hx
      rcases hx with hx | hx
      · exact h 1 x (List.mem_of_mem_filter hx)
      · exact ⟨(houtputs x hx).1, congrArg UInt8.toNat (houtputs x hx).2⟩
  | i + 2, hx =>
      rw [level_add_two_afterTargetCompaction] at hx
      exact h (i + 2) x hx

theorem Placed.afterFullCompaction (h : v.Placed K) (houtputs : ∀ x ∈ outputs, x ∈ K ∧ x.level = L1) :
    (v.afterFullCompaction outputs).Placed K := by
  intro i x hx
  match i, hx with
  | 0, hx =>
      rw [level_zero_afterFullCompaction] at hx
      exact absurd hx List.not_mem_nil
  | 1, hx =>
      rw [level_one_afterFullCompaction, mem_sortLevel] at hx
      exact ⟨(houtputs x hx).1, congrArg UInt8.toNat (houtputs x hx).2⟩
  | i + 2, hx =>
      rw [level_add_two_afterFullCompaction] at hx
      exact h (i + 2) x hx

/-- **A partial compaction** takes away the files it selected and adds its outputs. -/
theorem Placed.mem_files_afterTargetCompaction (h : v.Placed K)
    (hinj : Set.InjOn CsrSegmentMeta.fileId K) (h0 : ∀ x ∈ selectedL0, x ∈ K ∧ x.level = L0)
    (h1 : ∀ x ∈ selectedL1, x ∈ K ∧ x.level = L1) :
    m ∈ (v.afterTargetCompaction selectedL0 selectedL1 outputs).files ↔
      m ∈ v.files ∧ m ∉ selectedL0 ++ selectedL1 ∨ m ∈ outputs := by
  -- among known files, selecting by id is selecting the file
  have hid : ∀ {selected : List CsrSegmentMeta}, (∀ x ∈ selected, x ∈ K) → ∀ {i}, m ∈ v.level i →
      (m.fileId ∈ selected.map CsrSegmentMeta.fileId ↔ m ∈ selected) := by
    intro selected hselected i hm
    rw [List.mem_map]
    constructor
    · rintro ⟨x, hx, hxm⟩
      rwa [← hinj (hselected x hx) (h i m hm).1 hxm]
    · exact fun hm => ⟨m, hm, rfl⟩
  have hid0 := fun {i} => @hid selectedL0 (fun x hx => (h0 x hx).1) i
  have hid1 := fun {i} => @hid selectedL1 (fun x hx => (h1 x hx).1) i
  have hlevel0 : m ∈ selectedL0 → m.level.toNat = 0 := fun hm => congrArg UInt8.toNat (h0 m hm).2
  have hlevel1 : m ∈ selectedL1 → m.level.toNat = 1 := fun hm => congrArg UInt8.toNat (h1 m hm).2
  simp only [mem_files_levels, level_zero_afterTargetCompaction, level_one_afterTargetCompaction,
    level_add_two_afterTargetCompaction, mem_sortLevel, List.mem_append, List.mem_filter,
    decide_eq_true_iff, not_or]
  constructor
  · rintro (⟨hm, hn⟩ | (⟨hm, hn⟩ | hm) | ⟨i, hm⟩)
    · have hi := (h 0 m hm).2
      exact Or.inl ⟨Or.inl hm, fun h' => hn ((hid0 hm).mpr h'), fun h' => by have := hlevel1 h'; omega⟩
    · have hi := (h 1 m hm).2
      exact Or.inl ⟨Or.inr (Or.inl hm), fun h' => by have := hlevel0 h'; omega,
        fun h' => hn ((hid1 hm).mpr h')⟩
    · exact Or.inr hm
    · have hi := (h (i + 2) m hm).2
      exact Or.inl ⟨Or.inr (Or.inr ⟨i, hm⟩), fun h' => by have := hlevel0 h'; omega,
        fun h' => by have := hlevel1 h'; omega⟩
  · rintro (⟨hm | hm | hm, hn0, hn1⟩ | hm)
    · exact Or.inl ⟨hm, fun h' => hn0 ((hid0 hm).mp h')⟩
    · exact Or.inr (Or.inl (Or.inl ⟨hm, fun h' => hn1 ((hid1 hm).mp h')⟩))
    · exact Or.inr (Or.inr hm)
    · exact Or.inr (Or.inl (Or.inr hm))

/-- **A full compaction** takes away the files of both lower levels and adds its outputs. -/
theorem Placed.mem_files_afterFullCompaction (h : v.Placed K) :
    m ∈ (v.afterFullCompaction outputs).files ↔
      m ∈ v.files ∧ m ∉ v.level 0 ++ v.level 1 ∨ m ∈ outputs := by
  simp only [mem_files_levels, level_zero_afterFullCompaction, level_one_afterFullCompaction,
    level_add_two_afterFullCompaction, mem_sortLevel, List.not_mem_nil, false_or, List.mem_append,
    not_or]
  constructor
  · rintro (hm | ⟨i, hm⟩)
    · exact Or.inr hm
    · have hi := (h (i + 2) m hm).2
      refine Or.inl ⟨Or.inr (Or.inr ⟨i, hm⟩), fun h' => ?_, fun h' => ?_⟩
      · have := (h 0 m h').2
        omega
      · have := (h 1 m h').2
        omega
  · rintro (⟨hm | hm | hm, h0, h1⟩ | hm)
    · exact absurd hm h0
    · exact absurd hm h1
    · exact Or.inr hm
    · exact Or.inl hm

end Compaction

end Version

/-! ## Distributing live files -/

/-- One turn of the distribution puts the file on its level. -/
theorem getD_modify_ensureLevel (levels : List (List CsrSegmentMeta)) (file : CsrSegmentMeta)
    (i : Nat) :
    ((ensureLevel levels file.level).modify file.level.toNat (· ++ [file])).getD i [] =
      levels.getD i [] ++ if file.level.toNat = i then [file] else [] := by
  by_cases h : file.level.toNat = i
  · subst h
    rw [getD_modify_self (lt_length_ensureLevel levels file.level), getD_ensureLevel, if_pos rfl]
  · rw [getD_modify_of_ne h, getD_ensureLevel, if_neg h, List.append_nil]

/-- **Every live file is put on its level**, once. -/
theorem perm_getD_splitLevels (files : List CsrSegmentMeta) (maxLevels i : Nat) :
    ((splitLevels files maxLevels).getD i []).Perm
      (files.filter fun m => m.level.toNat = i) := by
  have hfold : ∀ levels : List (List CsrSegmentMeta),
      (files.foldl (fun levels file =>
        (ensureLevel levels file.level).modify file.level.toNat (· ++ [file])) levels).getD i [] =
          levels.getD i [] ++ files.filter fun m => m.level.toNat = i := by
    induction files with
    | nil => simp
    | cons file files ih =>
        intro levels
        rw [List.foldl_cons, ih, getD_modify_ensureLevel, List.append_assoc, List.filter_cons]
        by_cases h : file.level.toNat = i
        · simp [h]
        · simp [h]
  have hempty : (List.replicate (max maxLevels 2) ([] : List CsrSegmentMeta)).getD i [] = [] := by
    rcases lt_or_ge i (max maxLevels 2) with h | h
    · exact List.getD_replicate _ h
    · exact List.getD_eq_default _ _ (by rwa [List.length_replicate])
  have hsorted : (splitLevels files maxLevels).getD i [] =
      sortByKey splitKey (files.filter fun m => m.level.toNat = i) := by
    have h := hfold (List.replicate (max maxLevels 2) [])
    rw [hempty, List.nil_append] at h
    rw [← h]
    exact List.getD_map _ [] (sortByKey splitKey)
  exact hsorted ▸ perm_sortByKey _ _

end LsmGraph
