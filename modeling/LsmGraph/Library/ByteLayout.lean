import Mathlib.Data.List.Basic
import Mathlib.Data.List.TakeDrop
import Mathlib.Tactic.Ring
import Mathlib.Tactic.NormNum

/-! # Fixed layouts in byte buffers

Little-endian numbers (`toBytes`, `ofBytes`), fields of a buffer (`slice`, `put`, `putAll`) and
sequences of items of one width (`chunksExact`). A buffer filled field by field gives every field
back when the fields do not overlap (`slice_putAll`), and a concatenation of items of one width is
cut back into its items, whole ones only when it is cut short (`chunksExact_take_flatMap`). -/

namespace ByteLayout

/-! ## Little-endian numbers -/

/-- The `width` lowest bytes of a number, the lowest first. -/
def toBytes : Nat → Nat → List UInt8
  | 0, _ => []
  | width + 1, n => UInt8.ofNat n :: toBytes width (n / 256)

/-- The number with the given bytes, the lowest first. -/
def ofBytes : List UInt8 → Nat
  | [] => 0
  | b :: bytes => b.toNat + 256 * ofBytes bytes

@[simp] theorem length_toBytes (width n : Nat) : (toBytes width n).length = width := by
  induction width generalizing n with
  | zero => rfl
  | succ width ih => rw [toBytes, List.length_cons, ih]

/-- **A number that fits its width is read back.** -/
theorem ofBytes_toBytes {width n : Nat} (h : n < 256 ^ width) : ofBytes (toBytes width n) = n := by
  induction width generalizing n with
  | zero =>
      rw [pow_zero, Nat.lt_one_iff] at h
      rw [h]
      rfl
  | succ width ih =>
      have hdiv : n / 256 < 256 ^ width := by
        rw [pow_succ] at h
        exact Nat.div_lt_of_lt_mul (by omega)
      have hlow : (UInt8.ofNat n).toNat = n % 256 := UInt8.toNat_ofNat'
      rw [toBytes, ofBytes, ih hdiv, hlow]
      omega

/-! ## Fields -/

variable {α β : Type*}

/-- The field of `len` entries at `pos`, or what the buffer has of it. -/
def slice (buf : List α) (pos len : Nat) : List α := (buf.drop pos).take len

/-- Overwrite the field at `pos`. -/
def put (buf : List α) (pos : Nat) (field : List α) : List α :=
  buf.take pos ++ field ++ buf.drop (pos + field.length)

/-- Overwrite fields one after another. -/
def putAll (buf : List α) (fields : List (Nat × List α)) : List α :=
  fields.foldl (fun buf f => put buf f.1 f.2) buf

theorem length_slice (buf : List α) (pos len : Nat) :
    (slice buf pos len).length = min len (buf.length - pos) := by
  simp [slice]

theorem length_put {buf : List α} {pos : Nat} {field : List α}
    (h : pos + field.length ≤ buf.length) : (put buf pos field).length = buf.length := by
  simp only [put, List.length_append, List.length_take, List.length_drop]
  omega

/-- A field is read back. -/
theorem slice_put_self {buf : List α} {pos : Nat} {field : List α} (h : pos ≤ buf.length) :
    slice (put buf pos field) pos field.length = field := by
  have htake : (buf.take pos).length = pos := by rw [List.length_take]; omega
  rw [slice, put, List.append_assoc, List.drop_append_of_le_length htake.ge,
    List.drop_eq_nil_of_le htake.le, List.nil_append, List.take_left']
  rfl

/-- Other fields are left alone. -/
theorem slice_put_of_disjoint {buf : List α} {pos pos' len : Nat} {field : List α}
    (hfit : pos + field.length ≤ buf.length)
    (h : pos' + len ≤ pos ∨ pos + field.length ≤ pos') :
    slice (put buf pos field) pos' len = slice buf pos' len := by
  refine List.ext_getElem? fun i => ?_
  simp only [slice, put, List.getElem?_take, List.getElem?_drop]
  split
  · rename_i hi
    rcases h with h | h
    · rw [List.append_assoc, List.getElem?_append_left (by rw [List.length_take]; omega),
        List.getElem?_take_of_lt (by omega)]
    · rw [List.getElem?_append_right (by simp only [List.length_append, List.length_take]; omega),
        List.getElem?_drop]
      congr 1
      simp only [List.length_append, List.length_take]
      omega
  · rfl

/-- The fields do not overlap. -/
def Apart (f g : Nat × List α) : Prop :=
  f.1 + f.2.length ≤ g.1 ∨ g.1 + g.2.length ≤ f.1

theorem length_putAll {buf : List α} {fields : List (Nat × List α)}
    (hfit : ∀ f ∈ fields, f.1 + f.2.length ≤ buf.length) :
    (putAll buf fields).length = buf.length := by
  induction fields generalizing buf with
  | nil => rfl
  | cons f fields ih =>
      have hput := length_put (hfit f List.mem_cons_self)
      have hrest := @ih (put buf f.1 f.2) fun g hg => by
        rw [hput]
        exact hfit g (List.mem_cons_of_mem f hg)
      exact hrest.trans hput

/-- Fields put elsewhere leave a field alone. -/
theorem slice_putAll_of_disjoint {buf : List α} {fields : List (Nat × List α)} {pos len : Nat}
    (hfit : ∀ f ∈ fields, f.1 + f.2.length ≤ buf.length)
    (h : ∀ f ∈ fields, pos + len ≤ f.1 ∨ f.1 + f.2.length ≤ pos) :
    slice (putAll buf fields) pos len = slice buf pos len := by
  induction fields generalizing buf with
  | nil => rfl
  | cons f fields ih =>
      have hput := length_put (hfit f List.mem_cons_self)
      have hrest := @ih (put buf f.1 f.2)
        (fun g hg => by rw [hput]; exact hfit g (List.mem_cons_of_mem f hg))
        fun g hg => h g (List.mem_cons_of_mem f hg)
      exact hrest.trans (slice_put_of_disjoint (hfit f List.mem_cons_self) (h f List.mem_cons_self))

/-- **Fields that do not overlap are all read back.** -/
theorem slice_putAll {buf : List α} {fields : List (Nat × List α)}
    (hfit : ∀ f ∈ fields, f.1 + f.2.length ≤ buf.length) (hdisjoint : fields.Pairwise Apart)
    {pos len : Nat} {field : List α} (hf : (pos, field) ∈ fields) (hlen : field.length = len) :
    slice (putAll buf fields) pos len = field := by
  subst hlen
  induction fields generalizing buf with
  | nil => exact absurd hf List.not_mem_nil
  | cons g fields ih =>
      obtain ⟨hg, hrest⟩ := List.pairwise_cons.mp hdisjoint
      have hput := length_put (hfit g List.mem_cons_self)
      have hfit' : ∀ f ∈ fields, f.1 + f.2.length ≤ (put buf g.1 g.2).length := fun f hf => by
        rw [hput]
        exact hfit f (List.mem_cons_of_mem g hf)
      rcases List.mem_cons.mp hf with heq | hf
      · subst heq
        have hafter := slice_putAll_of_disjoint hfit' fun f hf => hg f hf
        have hpos := hfit (pos, field) List.mem_cons_self
        exact hafter.trans (slice_put_self (by omega))
      · exact ih hfit' hrest hf

/-! ## Concatenations -/

theorem slice_append_left {a b : List α} {len : Nat} (h : a.length = len) :
    slice (a ++ b) 0 len = a := by
  rw [slice, List.drop_zero, List.take_left' h]

theorem slice_append_right {a b : List α} {pos len : Nat} (h : a.length ≤ pos) :
    slice (a ++ b) pos len = slice b (pos - a.length) len := by
  rw [slice, slice, List.drop_append, List.drop_eq_nil_of_le h, List.nil_append]

/-- Neighbouring fields make one field. -/
theorem slice_append_slice (buf : List α) (pos len len' : Nat) :
    slice buf pos len ++ slice buf (pos + len) len' = slice buf pos (len + len') := by
  rw [slice, slice, slice, List.take_add, List.drop_drop]

theorem slice_all {a : List α} {len : Nat} (h : a.length = len) : slice a 0 len = a := by
  rw [slice, List.drop_zero, List.take_of_length_le h.le]

/-- A slice of a prefix is a prefix of the slice. -/
theorem slice_take (buf : List α) (n pos len : Nat) :
    slice (buf.take n) pos len = (slice buf pos len).take (n - pos) := by
  rw [slice, slice, List.drop_take, List.take_take, List.take_take, min_comm]

/-! ## Buffers that grow -/

/-- Cut the buffer to `len` entries, or fill it up. -/
def resize (fill : α) (buf : List α) (len : Nat) : List α :=
  buf.take len ++ List.replicate (len - buf.length) fill

/-- Write the field at `pos`, of a buffer that is filled up to there. -/
def overwrite (fill : α) (buf : List α) (pos : Nat) (field : List α) : List α :=
  resize fill buf pos ++ field ++ buf.drop (pos + field.length)

@[simp] theorem length_resize (fill : α) (buf : List α) (len : Nat) :
    (resize fill buf len).length = len := by
  rw [resize, List.length_append, List.length_take, List.length_replicate]
  omega

theorem length_overwrite (fill : α) (buf : List α) (pos : Nat) (field : List α) :
    (overwrite fill buf pos field).length = max (pos + field.length) buf.length := by
  rw [overwrite, List.length_append, List.length_append, length_resize, List.length_drop]
  omega

/-- Cutting at a place that the buffer reaches. -/
theorem resize_of_le {fill : α} {buf : List α} {len : Nat} (h : len ≤ buf.length) :
    resize fill buf len = buf.take len := by
  rw [resize, Nat.sub_eq_zero_of_le h, List.replicate_zero, List.append_nil]

/-- A write without entries fills the buffer up, if anything. -/
theorem overwrite_nil_eq_iff {fill : α} {buf : List α} {pos : Nat} :
    overwrite fill buf pos [] = buf ↔ pos ≤ buf.length := by
  constructor
  · intro h
    have hlength := congrArg List.length h
    rw [length_overwrite] at hlength
    simp only [List.length_nil] at hlength
    omega
  · intro h
    rw [overwrite, resize_of_le h, List.append_nil]
    exact List.take_append_drop pos buf

/-- **Two writes, one behind the other, are one.** -/
theorem overwrite_overwrite (fill : α) (buf : List α) (pos : Nat) (a b : List α) :
    overwrite fill (overwrite fill buf pos a) (pos + a.length) b = overwrite fill buf pos (a ++ b) := by
  have hfront : (resize fill buf pos ++ a).length = pos + a.length := by
    rw [List.length_append, length_resize]
  have hresize : resize fill (overwrite fill buf pos a) (pos + a.length) = resize fill buf pos ++ a := by
    rw [resize_of_le (by rw [length_overwrite]; exact le_max_left _ _), overwrite,
      List.take_left' hfront]
  have hdrop : (overwrite fill buf pos a).drop (pos + a.length + b.length) =
      buf.drop (pos + (a.length + b.length)) := by
    rw [← List.drop_drop, overwrite, List.drop_left' hfront, List.drop_drop, Nat.add_assoc]
  rw [overwrite, hresize, hdrop, overwrite, List.length_append, List.append_assoc, List.append_assoc,
    List.append_assoc, List.append_assoc]

/-- Cutting behind the front part of a write leaves that part. -/
theorem resize_overwrite (fill : α) (buf : List α) (pos : Nat) (a b : List α) :
    resize fill (overwrite fill buf pos (a ++ b)) (pos + a.length) = resize fill buf pos ++ a := by
  have hfront : (resize fill buf pos ++ a).length = pos + a.length := by
    rw [List.length_append, length_resize]
  have hle : pos + a.length ≤ (overwrite fill buf pos (a ++ b)).length := by
    rw [length_overwrite, List.length_append]
    omega
  rw [resize_of_le hle, overwrite, ← List.append_assoc, List.append_assoc, List.take_left' hfront]

/-- Nothing is left behind a write that reaches the end of the buffer. -/
theorem overwrite_eq_append_iff {fill : α} {buf : List α} {pos : Nat} {field : List α} :
    resize fill buf pos ++ field = overwrite fill buf pos field ↔
      buf.length ≤ pos + field.length := by
  rw [overwrite, List.self_eq_append_right, List.drop_eq_nil_iff]

/-! ## Items of one width -/

/-- The whole pieces of `n` entries; a shorter rest is dropped. -/
def chunksExact (n : Nat) (l : List α) : List (List α) :=
  (List.range (l.length / n)).map fun i => slice l (i * n) n

/-- The pieces of `n` entries; the last one may be shorter. -/
def chunks (n : Nat) (l : List α) : List (List α) :=
  (List.range ((l.length + n - 1) / n)).map fun i => slice l (i * n) n

/-- The pieces put together again. -/
theorem flatten_chunks {n : Nat} (hn : 0 < n) (l : List α) : (chunks n l).flatten = l := by
  have hcut : ∀ k, ((List.range k).map fun i => slice l (i * n) n).flatten = l.take (k * n) := by
    intro k
    induction k with
    | zero => simp
    | succ k ih =>
        rw [List.range_succ, List.map_append, List.flatten_append, ih, Nat.succ_mul, List.take_add]
        simp [slice]
  rw [chunks, hcut]
  refine List.take_of_length_le ?_
  have hle := Nat.lt_div_mul_add hn (a := l.length + n - 1)
  omega

section Items

variable {f : β → List α} {n : Nat}

theorem length_flatMap_const (hf : ∀ x, (f x).length = n) (xs : List β) :
    (xs.flatMap f).length = xs.length * n := by
  induction xs with
  | nil => simp
  | cons x xs ih =>
      rw [List.flatMap_cons, List.length_append, hf, ih, List.length_cons, Nat.succ_mul, add_comm]

theorem drop_flatMap_const (hf : ∀ x, (f x).length = n) (xs : List β) (i : Nat) :
    (xs.flatMap f).drop (i * n) = (xs.drop i).flatMap f := by
  induction xs generalizing i with
  | nil => simp
  | cons x xs ih =>
      cases i with
      | zero => simp
      | succ i =>
          rw [List.flatMap_cons, List.drop_succ_cons, ← ih i, List.drop_append,
            List.drop_eq_nil_of_le (by rw [hf, Nat.succ_mul]; omega), List.nil_append, hf,
            Nat.succ_mul, Nat.add_sub_cancel]

theorem take_flatMap_const (hf : ∀ x, (f x).length = n) (xs : List β) (i : Nat) :
    (xs.flatMap f).take (i * n) = (xs.take i).flatMap f := by
  induction xs generalizing i with
  | nil => simp
  | cons x xs ih =>
      cases i with
      | zero => simp
      | succ i =>
          rw [List.flatMap_cons, List.take_succ_cons, List.flatMap_cons, ← ih i, List.take_append,
            List.take_of_length_le (by rw [hf, Nat.succ_mul]; omega), hf, Nat.succ_mul,
            Nat.add_sub_cancel]

/-- Whole items of a concatenation. -/
theorem slice_flatMap_const (hf : ∀ x, (f x).length = n) (xs : List β) (i count : Nat) :
    slice (xs.flatMap f) (i * n) (count * n) = ((xs.drop i).take count).flatMap f := by
  rw [slice, drop_flatMap_const hf, take_flatMap_const hf]

/-- **A concatenation of items, cut short anywhere, is cut into the items that are whole.** -/
theorem chunksExact_take_flatMap (hf : ∀ x, (f x).length = n) (hn : 0 < n) (xs : List β)
    (k : Nat) : chunksExact n ((xs.flatMap f).take k) = (xs.map f).take (k / n) := by
  have hlen : ((xs.flatMap f).take k).length / n = min (k / n) xs.length := by
    rw [List.length_take, length_flatMap_const hf]
    rcases Nat.le_total k (xs.length * n) with h | h
    · rw [min_eq_left h, min_eq_left (Nat.div_le_of_le_mul (by rwa [mul_comm]))]
    · rw [min_eq_right h, Nat.mul_div_cancel _ hn, min_eq_right]
      exact (Nat.le_div_iff_mul_le hn).mpr h
  refine List.ext_getElem ?_ fun i hi _ => ?_
  · rw [chunksExact, List.length_map, List.length_range, hlen, List.length_take, List.length_map]
  · simp only [chunksExact, hlen, List.length_map, List.length_range] at hi
    have hik : i < k / n := lt_of_lt_of_le hi (min_le_left _ _)
    have hix : i < xs.length := lt_of_lt_of_le hi (min_le_right _ _)
    -- the `i`-th item ends before the cut
    have hcut : n ≤ k - i * n := by
      have hle : (i + 1) * n ≤ k := (Nat.le_div_iff_mul_le hn).mp hik
      rw [Nat.succ_mul] at hle
      omega
    have hitem := slice_flatMap_const hf xs i 1
    rw [Nat.one_mul, List.take_one_drop_eq_of_lt_length hix, List.flatMap_singleton] at hitem
    simp only [chunksExact, List.getElem_map, List.getElem_range, List.getElem_take]
    rw [slice_take, hitem]
    exact List.take_of_length_le (by rw [hf]; exact hcut)

theorem chunksExact_flatMap (hf : ∀ x, (f x).length = n) (hn : 0 < n) (xs : List β) :
    chunksExact n (xs.flatMap f) = xs.map f := by
  have h := chunksExact_take_flatMap hf hn xs (xs.length * n)
  rw [← length_flatMap_const hf, List.take_length] at h
  rw [h, length_flatMap_const hf, Nat.mul_div_cancel _ hn, ← List.length_map f,
    List.take_length]

end Items

end ByteLayout
