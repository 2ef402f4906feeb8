import LsmGraph.Library.ByteLayout
import Mathlib.Data.Nat.Bitwise

/-! # Reading through three backends

`io/blocking_pread.rs`, `io/direct_io.rs` and `io/uring.rs` read a range of a file over a kernel that
may answer any read with fewer bytes than it was asked for (`Kernel`). The blocking backend reads on
until the range or the file ends and returns the bytes of the range whatever the kernel does
(`readAt_eq`). The other two make one call: the direct backend an aligned one whose answer it trims,
the `io_uring` backend one of the range itself. They return the bytes of the range exactly when the
answer to that call reaches its end (`backends_agree_iff`). -/

namespace LsmGraph

open ByteLayout

namespace Io

/-- The answers of the kernel to the reads of a file of `size` bytes: how many bytes the call with
the given number returns, asked for `len` bytes at `offset`. -/
structure Kernel (size : Nat) where
  answer : Nat → Nat → Nat → Nat
  le_len : ∀ call offset len, answer call offset len ≤ len
  le_available : ∀ call offset len, answer call offset len ≤ size - offset
  pos : ∀ call offset len, 0 < len → offset < size → 0 < answer call offset len

/-- The bytes the kernel puts into the buffer. -/
def pread (file : List UInt8) (k : Kernel file.length) (call offset len : Nat) : List UInt8 :=
  slice file offset (k.answer call offset len)

/-! ## The blocking backend -/

/-- The loop of `read_at_exactish` from position `pos` of the buffer: the bytes it adds, or `none`
when it has not ended after `rounds` rounds. -/
def readAtExactish (file : List UInt8) (k : Kernel file.length) (offset len : Nat) :
    Nat → Nat → Nat → Option (List UInt8)
  | 0, _, _ => none
  | rounds + 1, call, pos =>
      if pos < len then
        let bytes := pread file k call (offset + pos) (len - pos)
        let n := bytes.length
        if n = 0 then some []
        else
          (readAtExactish file k offset len rounds (call + 1) (pos + n)).map fun rest =>
            bytes ++ rest
      else some []

/-- `BlockingPreadBackend::read_at`. A round reads a byte at least, or is the last. -/
def readAt (file : List UInt8) (k : Kernel file.length) (offset len : UInt64) :
    Option (List UInt8) :=
  readAtExactish file k offset.toNat len.toNat (len.toNat + 1) 0 0

/-! ## The other backends -/

def align : UInt64 := 4096

def alignDown (v align : UInt64) : UInt64 := v &&& ~~~(align - 1)

def alignUp (v align : UInt64) : UInt64 := (v + align - 1) &&& ~~~(align - 1)

/-- `direct_read_at`: the buffer is zeroed and starts `delta` bytes before the range. -/
def directReadAt (file : List UInt8) (k : Kernel file.length) (offset len : UInt64) : List UInt8 :=
  if len = 0 then []
  else
    let alignedOffset := alignDown offset align
    let delta := offset - alignedOffset
    let alignedLen := alignUp (delta + len) align
    let bytes := pread file k 0 alignedOffset.toNat alignedLen.toNat
    let buf := bytes ++ List.replicate (alignedLen.toNat - bytes.length) 0
    let n := bytes.length
    if n ≤ delta.toNat then []
    else
      let available := min (n - delta.toNat) len.toNat
      slice buf delta.toNat available

/-- `uring_read_at`: a zeroed buffer, truncated to the result of the one completion. -/
def uringReadAt (file : List UInt8) (k : Kernel file.length) (offset len : UInt64) : List UInt8 :=
  let bytes := pread file k 0 offset.toNat len.toNat
  let buf := bytes ++ List.replicate (len.toNat - bytes.length) 0
  buf.take bytes.length

/-! ## Alignment -/

/-- Clearing the low twelve bits rounds down to a multiple of 4096. -/
theorem toNat_and_not (v : UInt64) :
    (v &&& ~~~(align - 1)).toNat = v.toNat / 2 ^ 12 * 2 ^ 12 := by
  have hmask : (~~~(align - 1)).toNat = (2 ^ 52 - 1) * 2 ^ 12 := by decide
  rw [UInt64.toNat_and, hmask]
  refine Nat.eq_of_testBit_eq fun i => ?_
  rw [Nat.testBit_and, Nat.testBit_mul_two_pow, Nat.testBit_mul_two_pow, Nat.testBit_div_two_pow,
    Nat.testBit_two_pow_sub_one]
  by_cases hlow : 12 ≤ i
  · rw [Nat.sub_add_cancel hlow]
    by_cases hhigh : i < 64
    · rw [decide_eq_true hlow, decide_eq_true (by omega : i - 12 < 52)]
      simp
    · have hzero : v.toNat.testBit i = false :=
        Nat.testBit_lt_two_pow (v.toNat_lt.trans_le (Nat.pow_le_pow_right (by decide) (by omega)))
      simp [hzero]
  · simp [hlow]

/-- The aligned range starts at or before the range it is made for. -/
theorem toNat_alignDown_add_delta (offset : UInt64) :
    (alignDown offset align).toNat + (offset - alignDown offset align).toNat = offset.toNat ∧
      (offset - alignDown offset align).toNat < 4096 := by
  have hdown : (alignDown offset align).toNat = offset.toNat / 2 ^ 12 * 2 ^ 12 :=
    toNat_and_not offset
  have hle : alignDown offset align ≤ offset := by
    rw [UInt64.le_iff_toNat_le, hdown]
    exact Nat.div_mul_le_self _ _
  rw [UInt64.toNat_sub_of_le _ _ hle, hdown]
  omega

/-- And ends at or behind its end, as long as the buffer can be allocated. -/
theorem le_toNat_alignUp {v : UInt64} (h : v.toNat < 2 ^ 63 + 4096) :
    v.toNat ≤ (alignUp v align).toNat := by
  have hsum : (v + align).toNat = v.toNat + 4096 := by
    rw [UInt64.toNat_add]
    exact Nat.mod_eq_of_lt (by change v.toNat + 4096 < 2 ^ 64; omega)
  have hone : 1 ≤ v + align := by
    rw [UInt64.le_iff_toNat_le, hsum]
    exact Nat.le_add_left 1 (v.toNat + 4095)
  have hadd : (v + align - 1).toNat = v.toNat + 4095 := by
    rw [UInt64.toNat_sub_of_le _ _ hone, hsum]
    rfl
  rw [alignUp, toNat_and_not, hadd]
  omega

/-- A call returns as many bytes as the kernel answers. -/
theorem length_pread (file : List UInt8) (k : Kernel file.length) (call offset len : Nat) :
    (pread file k call offset len).length = k.answer call offset len := by
  rw [pread, length_slice]
  have h := k.le_available call offset len
  omega

/-- **The blocking loop** reads from its position to the end of the range or of the file. -/
theorem readAtExactish_eq {file : List UInt8} {k : Kernel file.length} {offset len rounds call pos : Nat}
    (hpos : pos ≤ len) (hrounds : len - pos < rounds) :
    readAtExactish file k offset len rounds call pos =
      some (slice file (offset + pos) (len - pos)) := by
  induction rounds generalizing call pos with
  | zero => exact absurd hrounds (Nat.not_lt_zero _)
  | succ rounds ih =>
      rw [readAtExactish]
      by_cases hlt : pos < len
      · have hn := length_pread file k call (offset + pos) (len - pos)
        rw [if_pos hlt]
        simp only [hn]
        have hle := k.le_len call (offset + pos) (len - pos)
        by_cases hzero : k.answer call (offset + pos) (len - pos) = 0
        · -- only at the end of the file
          have hend : file.length ≤ offset + pos := by
            by_contra hinside
            have := k.pos call (offset + pos) (len - pos) (by omega) (by omega)
            omega
          rw [if_pos hzero, slice, List.drop_eq_nil_of_le hend, List.take_nil]
        · have hsplit : len - pos = k.answer call (offset + pos) (len - pos) +
              (len - (pos + k.answer call (offset + pos) (len - pos))) := by omega
          rw [if_neg hzero, ih (by omega) (by omega), Option.map_some, pread, ← Nat.add_assoc,
            slice_append_slice, ← hsplit]
      · have hlen : len - pos = 0 := by omega
        rw [if_neg hlt, hlen, slice, List.take_zero]

/-- **The blocking backend returns the bytes of the range**, whatever the kernel answers. -/
theorem readAt_eq (file : List UInt8) (k : Kernel file.length) (offset len : UInt64) :
    readAt file k offset len = some (slice file offset.toNat len.toNat) :=
  readAtExactish_eq (Nat.zero_le _) (Nat.lt_succ_self _)

/-! ## One call -/

/-- A prefix of a range is the range exactly when it is cut off behind its end. -/
theorem slice_min_eq_iff {file : List UInt8} {offset len n : Nat} :
    slice file offset (min n len) = slice file offset len ↔ min len (file.length - offset) ≤ n := by
  constructor
  · intro h
    have hlength := congrArg List.length h
    rw [length_slice, length_slice] at hlength
    omega
  · intro h
    rw [slice, slice, ← List.take_take]
    refine List.take_of_length_le ?_
    rw [List.length_take, List.length_drop]
    exact h

/-- How much of the range the direct backend's aligned call reaches. -/
def directReach {size : Nat} (k : Kernel size) (offset len : UInt64) : Nat :=
  let alignedOffset := alignDown offset align
  let delta := offset - alignedOffset
  k.answer 0 alignedOffset.toNat (alignUp (delta + len) align).toNat - delta.toNat

/-- **The direct backend returns what its aligned call reaches of the range.** -/
theorem directReadAt_eq (file : List UInt8) (k : Kernel file.length) (offset len : UInt64) :
    directReadAt file k offset len =
      slice file offset.toNat (min (directReach k offset len) len.toNat) := by
  have hstart := (toNat_alignDown_add_delta offset).1
  rw [directReadAt, directReach]
  by_cases hlen : len = 0
  · have hzero : len.toNat = 0 := congrArg UInt64.toNat hlen
    rw [if_pos hlen, hzero, Nat.min_zero]
    exact List.take_zero.symm
  · rw [if_neg hlen]
    simp only [length_pread]
    obtain ⟨n, hn⟩ : ∃ n, n = k.answer 0 (alignDown offset align).toNat
      (alignUp (offset - alignDown offset align + len) align).toNat := ⟨_, rfl⟩
    have hbytes := length_pread file k 0 (alignDown offset align).toNat
      (alignUp (offset - alignDown offset align + len) align).toNat
    rw [pread, ← hn] at hbytes
    rw [pread, ← hn]
    by_cases hshort : n ≤ (offset - alignDown offset align).toNat
    · rw [if_pos hshort, Nat.sub_eq_zero_of_le hshort, Nat.zero_min]
      exact List.take_zero.symm
    · -- the trimmed part lies in what was read, not in the zeros behind it
      rw [if_neg hshort, slice, List.drop_append_of_le_length (by omega),
        List.take_append_of_le_length (by rw [List.length_drop]; omega), slice, List.drop_take,
        List.take_take, List.drop_drop, hstart, slice]
      congr 1
      omega

theorem uringReadAt_eq (file : List UInt8) (k : Kernel file.length) (offset len : UInt64) :
    uringReadAt file k offset len =
      slice file offset.toNat (min (k.answer 0 offset.toNat len.toNat) len.toNat) := by
  rw [uringReadAt, List.take_left, pread, min_eq_left (k.le_len 0 _ _)]

/-- **When the backends agree.** Whatever the kernel does, the blocking backend returns the bytes of
the range, and another backend does so exactly when the answer to its one call reaches the end of the
range or of the file. -/
theorem backends_agree_iff (file : List UInt8) (k : Kernel file.length) (offset len : UInt64) :
    readAt file k offset len = some (slice file offset.toNat len.toNat) ∧
      (some (directReadAt file k offset len) = readAt file k offset len ↔
        min len.toNat (file.length - offset.toNat) ≤ directReach k offset len) ∧
      (some (uringReadAt file k offset len) = readAt file k offset len ↔
        min len.toNat (file.length - offset.toNat) ≤ k.answer 0 offset.toNat len.toNat) := by
  refine ⟨readAt_eq file k offset len, ?_, ?_⟩
  · rw [readAt_eq, directReadAt_eq, Option.some.injEq]
    exact slice_min_eq_iff
  · rw [readAt_eq, uringReadAt_eq, Option.some.injEq]
    exact slice_min_eq_iff

/-- A kernel that returns one byte at a time. -/
def oneByte (size : Nat) : Kernel size where
  answer _ offset len := min 1 (min len (size - offset))
  le_len _ _ _ := (min_le_right _ _).trans (min_le_left _ _)
  le_available _ _ _ := (min_le_right _ _).trans (min_le_right _ _)
  pos _ offset len hlen hoffset := by omega

/-- A file of two bytes, read one byte at a time. -/
theorem not_backends_agree :
    ¬∀ (file : List UInt8) (k : Kernel file.length) (offset len : UInt64),
      some (directReadAt file k offset len) = readAt file k offset len ∧
        some (uringReadAt file k offset len) = readAt file k offset len := by
  intro h
  exact absurd (h [1, 2] (oneByte 2) 0 2) (by decide +kernel)

/-- The kernel answers the call in full. -/
def Kernel.Full {size : Nat} (k : Kernel size) (offset len : Nat) : Prop :=
  k.answer 0 offset len = min len (size - offset)

/-- **On full answers the backends agree**, for every buffer that can be allocated. -/
theorem directReadAt_of_full {file : List UInt8} {k : Kernel file.length} {offset len : UInt64}
    (hlen : len.toNat < 2 ^ 63)
    (hfull : k.Full (alignDown offset align).toNat
      (alignUp (offset - alignDown offset align + len) align).toNat) :
    directReadAt file k offset len = slice file offset.toNat len.toNat := by
  obtain ⟨hstart, hdelta⟩ := toNat_alignDown_add_delta offset
  have hsum : (offset - alignDown offset align + len).toNat =
      (offset - alignDown offset align).toNat + len.toNat := by
    rw [UInt64.toNat_add]
    exact Nat.mod_eq_of_lt (by omega)
  have hup := le_toNat_alignUp (v := offset - alignDown offset align + len) (by omega)
  rw [directReadAt_eq, slice_min_eq_iff, directReach, hfull]
  omega

end Io

end LsmGraph
