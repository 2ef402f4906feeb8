import LsmGraph.Io

/-! # Writing through three backends

The `write_at` of `io/blocking_pread.rs`, `io/direct_io.rs` and `io/uring.rs`, over a kernel that may
write less than it is given, or fail (`WriteKernel`). A successful write of the blocking backend
replaces its range and leaves the other bytes. The direct backend writes whole pages and then sets the
length of the file to the end of the range, which cuts off what the file had behind it: `Meets` is when
a backend leaves the rest of the file alone, and runs of both backends leave the same files exactly when
every write meets it (`writes_agree_iff`). -/

namespace LsmGraph

open ByteLayout

namespace Io

/-- A buffer that Rust can allocate. -/
structure Buf where
  bytes : List UInt8
  length_lt : bytes.length < 2 ^ 63

def Buf.len (buf : Buf) : UInt64 := UInt64.ofNat buf.bytes.length

/-- The answers of the kernel while a file is written: whether it opens the file and gets the memory,
how many bytes the write call with the given number takes, given `len` bytes for `offset`, and whether
it sets the length. A write ends below `2 ^ 63`, the range of `off_t`. -/
structure WriteKernel where
  openFile : Except String Unit
  memalign : Nat → Except String Unit
  answer : Nat → Nat → Nat → Except String Nat
  setLen : Nat → Except String Unit
  le_len : ∀ call offset len n, answer call offset len = .ok n → n ≤ len
  end_lt : ∀ call offset len n, answer call offset len = .ok n → offset + n < 2 ^ 63

/-- The file after a write call: a call without bytes does not even fill it up. -/
def pwrite (file : List UInt8) (offset : Nat) (bytes : List UInt8) : List UInt8 :=
  if bytes = [] then file else overwrite 0 file offset bytes

/-! ## The backends

A write returns the file it leaves, also when it fails, and its result. A file that is missing is
opened as an empty one. -/

/-- The loop of `write_all_at` and of `direct_write_at` from position `pos` of the buffer, with the
error for a call that takes nothing, or `none` when it has not ended after `rounds` rounds. -/
def writeLoop (k : WriteKernel) (zero : String) (offset : Nat) (buf : List UInt8) :
    Nat → Nat → Nat → List UInt8 → Option (List UInt8 × Except String Unit)
  | 0, _, _, _ => none
  | rounds + 1, call, pos, file =>
      if pos < buf.length then
        match k.answer call (offset + pos) (buf.length - pos) with
        | .error e => some (file, .error e)
        | .ok n =>
            if n = 0 then some (file, .error zero)
            else
              writeLoop k zero offset buf rounds (call + 1) (pos + n)
                (pwrite file (offset + pos) (slice buf pos n))
      else some (file, .ok ())

/-- `write_all_at`. A round writes a byte at least, or is the last. -/
def writeAllAt (k : WriteKernel) (file : List UInt8) (buf : List UInt8) (offset : Nat) :
    Option (List UInt8 × Except String Unit) :=
  writeLoop k "write_at returned zero" offset buf (buf.length + 1) 0 0 file

/-- `BlockingPreadBackend::write_at`. -/
def writeAt (k : WriteKernel) (file : List UInt8) (offset : UInt64) (buf : Buf) :
    Option (List UInt8 × Except String UInt64) :=
  match k.openFile with
  | .error e => some (file, .error e)
  | .ok () =>
      (writeAllAt k file buf.bytes offset.toNat).map fun (file, written) =>
        (file, written.map fun () => buf.len)

/-- `direct_write_at`: the buffer is filled up with zeros to whole pages. -/
def directWriteAt (k : WriteKernel) (file : List UInt8) (offset : UInt64) (buf : Buf) :
    Option (List UInt8 × Except String UInt64) :=
  if offset % align ≠ 0 then
    some (file, .error s!"O_DIRECT write offset must be {align}-byte aligned: {offset}")
  else
    let alignedLen := (alignUp buf.len align).toNat
    match k.openFile, k.memalign alignedLen with
    | .error e, _ => some (file, .error e)
    | .ok (), .error e => some (file, .error e)
    | .ok (), .ok () =>
        let aligned := buf.bytes ++ List.replicate (alignedLen - buf.bytes.length) 0
        match writeLoop k "O_DIRECT pwrite returned zero" offset.toNat aligned
            (alignedLen + 1) 0 0 file with
        | none => none
        | some (file, .error e) => some (file, .error e)
        | some (file, .ok ()) =>
            let len := offset + buf.len
            match k.setLen len.toNat with
            | .error e => some (file, .error e)
            | .ok () => some (resize 0 file len.toNat, .ok buf.len)

/-- `uring_write_at`, one call. The kernel takes the offset -1 for the position of the file, which is
at its start. -/
def uringWriteAt (k : WriteKernel) (file : List UInt8) (offset : UInt64) (buf : Buf) :
    Option (List UInt8 × Except String UInt64) :=
  match k.openFile with
  | .error e => some (file, .error e)
  | .ok () =>
      let start := if offset = -1 then 0 else offset.toNat
      match k.answer 0 start buf.bytes.length with
      | .error e => some (file, .error e)
      | .ok ret =>
          let file := pwrite file start (buf.bytes.take ret)
          if ret ≠ buf.bytes.length then
            some (file, .error s!"short io_uring write: {ret} of {buf.bytes.length}")
          else some (file, .ok buf.len)

inductive Backend
  | blocking
  | direct
  | uring
  deriving DecidableEq, Repr

/-- `AnyIoBackend::write_at`. -/
def Backend.writeAt : Backend → WriteKernel → List UInt8 → UInt64 → Buf →
    Option (List UInt8 × Except String UInt64)
  | .blocking => Io.writeAt
  | .direct => directWriteAt
  | .uring => uringWriteAt

/-! ## One write -/

/-- Two calls, one behind the other, are one. -/
theorem pwrite_pwrite {file a b : List UInt8} {offset : Nat} (ha : a ≠ []) :
    pwrite (pwrite file offset a) (offset + a.length) b = pwrite file offset (a ++ b) := by
  have hab : a ++ b ≠ [] := fun h => ha (List.append_eq_nil_iff.mp h).1
  unfold pwrite
  rw [if_neg ha, if_neg hab]
  by_cases hb : b = []
  · rw [if_pos hb, hb, List.append_nil]
  · rw [if_neg hb, overwrite_overwrite]

/-- **The loop.** When it succeeds it has written the rest of the buffer. -/
theorem writeLoop_ok {k : WriteKernel} {zero : String} {offset rounds call pos : Nat}
    {buf file new : List UInt8} (hpos : pos ≤ buf.length)
    (h : writeLoop k zero offset buf rounds call pos file = some (new, .ok ())) :
    new = pwrite file (offset + pos) (buf.drop pos) ∧
      (pos < buf.length → offset + buf.length < 2 ^ 63) := by
  induction rounds generalizing call pos file with
  | zero => exact absurd h (by rw [writeLoop]; exact nofun)
  | succ rounds ih =>
      rw [writeLoop] at h
      by_cases hlt : pos < buf.length
      · rw [if_pos hlt] at h
        cases hanswer : k.answer call (offset + pos) (buf.length - pos) with
        | error e =>
            rw [hanswer] at h
            exact absurd h nofun
        | ok n =>
            have hle := k.le_len _ _ _ _ hanswer
            have hend := k.end_lt _ _ _ _ hanswer
            simp only [hanswer] at h
            by_cases hzero : n = 0
            · rw [if_pos hzero] at h
              exact absurd h nofun
            · rw [if_neg hzero] at h
              obtain ⟨hnew, hbound⟩ := ih (by omega) h
              have hlength : (slice buf pos n).length = n := by
                rw [length_slice]
                omega
              have hpart : slice buf pos n ≠ [] := by
                intro hnil
                rw [hnil] at hlength
                exact hzero hlength.symm
              have hsplit : slice buf pos n ++ buf.drop (pos + n) = buf.drop pos := by
                rw [slice, ← List.drop_drop]
                exact List.take_append_drop n _
              -- the part just written and what the rest of the loop writes are one call
              constructor
              · have hpwrite := @pwrite_pwrite file _ (buf.drop (pos + n)) (offset + pos) hpart
                rw [hlength, hsplit] at hpwrite
                rw [hnew, ← Nat.add_assoc, hpwrite]
              · intro _
                by_cases hlast : pos + n < buf.length
                · exact hbound hlast
                · omega
      · have hdrop : buf.drop pos = [] := List.drop_eq_nil_of_le (Nat.not_lt.mp hlt)
        rw [if_neg hlt] at h
        obtain ⟨rfl, -⟩ := Prod.mk.inj (Option.some.inj h)
        rw [hdrop, pwrite, if_pos rfl]
        exact ⟨rfl, fun hlt' => absurd hlt' hlt⟩

/-- It ends. -/
theorem isSome_writeLoop (k : WriteKernel) (zero : String) (offset : Nat) (buf : List UInt8)
    {rounds : Nat} (call : Nat) {pos : Nat} (file : List UInt8) (hrounds : buf.length - pos < rounds) :
    (writeLoop k zero offset buf rounds call pos file).isSome := by
  induction rounds generalizing call pos file with
  | zero => exact absurd hrounds (Nat.not_lt_zero _)
  | succ rounds ih =>
      rw [writeLoop]
      by_cases hlt : pos < buf.length
      · rw [if_pos hlt]
        cases hanswer : k.answer call (offset + pos) (buf.length - pos) with
        | error e => rfl
        | ok n =>
            dsimp only
            by_cases hzero : n = 0
            · rw [if_pos hzero]
              rfl
            · rw [if_neg hzero]
              exact ih _ _ (by omega)
      · rw [if_neg hlt]
        rfl

theorem Buf.toNat_len (buf : Buf) : buf.len.toNat = buf.bytes.length :=
  UInt64.toNat_ofNat_of_lt' (buf.length_lt.trans (by decide))

theorem isSome_writeAt (b : Backend) (k : WriteKernel) (file : List UInt8) (offset : UInt64)
    (buf : Buf) : (b.writeAt k file offset buf).isSome := by
  cases b with
  | blocking =>
      change (writeAt k file offset buf).isSome
      rw [writeAt]
      split
      · rfl
      · rw [Option.isSome_map]
        exact isSome_writeLoop k _ _ _ _ _ (Nat.lt_succ_self _)
  | direct =>
      have hlt := buf.length_lt
      have hup := le_toNat_alignUp (v := buf.len) (by rw [buf.toNat_len]; omega)
      rw [buf.toNat_len] at hup
      change (directWriteAt k file offset buf).isSome
      rw [directWriteAt]
      split
      · rfl
      · dsimp only
        split
        · rfl
        · rfl
        · have hloop := @isSome_writeLoop k "O_DIRECT pwrite returned zero" offset.toNat
            (buf.bytes ++ List.replicate ((alignUp buf.len align).toNat - buf.bytes.length) 0)
            ((alignUp buf.len align).toNat + 1) 0 0 file
            (by rw [List.length_append, List.length_replicate]; omega)
          split
          · rename_i hnone
            rw [hnone] at hloop
            exact absurd hloop nofun
          · rfl
          · split <;> rfl
  | uring =>
      change (uringWriteAt k file offset buf).isSome
      rw [uringWriteAt]
      split
      · rfl
      · dsimp only
        split
        · rfl
        · split <;> rfl

/-- The blocking backend writes the buffer. -/
theorem writeAt_ok {k : WriteKernel} {file new : List UInt8} {offset n : UInt64} {buf : Buf}
    (h : writeAt k file offset buf = some (new, .ok n)) :
    new = pwrite file offset.toNat buf.bytes ∧ n = buf.len := by
  rw [writeAt] at h
  cases hopen : k.openFile with
  | error e =>
      rw [hopen] at h
      exact absurd h nofun
  | ok _ =>
      rw [hopen] at h
      obtain ⟨⟨file', written⟩, hloop, heq⟩ := Option.map_eq_some_iff.mp h
      obtain ⟨rfl, hwritten⟩ := Prod.mk.inj heq
      cases written with
      | error e => exact absurd hwritten nofun
      | ok _ =>
          obtain ⟨hnew, -⟩ := writeLoop_ok (Nat.zero_le _) hloop
          exact ⟨hnew, (Except.ok.inj hwritten).symm⟩

theorem uringWriteAt_ok {k : WriteKernel} {file new : List UInt8} {offset n : UInt64} {buf : Buf}
    (h : uringWriteAt k file offset buf = some (new, .ok n)) :
    new = pwrite file (if offset = -1 then 0 else offset.toNat) buf.bytes ∧ n = buf.len := by
  rw [uringWriteAt] at h
  cases hopen : k.openFile with
  | error e =>
      rw [hopen] at h
      exact absurd h nofun
  | ok _ =>
      simp only [hopen] at h
      cases hanswer : k.answer 0 (if offset = -1 then 0 else offset.toNat) buf.bytes.length with
      | error e =>
          rw [hanswer] at h
          exact absurd h nofun
      | ok ret =>
          simp only [hanswer] at h
          by_cases hshort : ret ≠ buf.bytes.length
          · rw [if_pos hshort] at h
            exact absurd h nofun
          · rw [if_neg hshort] at h
            obtain ⟨hnew, hlen⟩ := Prod.mk.inj (Option.some.inj h)
            rw [not_not.mp hshort, List.take_length] at hnew
            exact ⟨hnew.symm, (Except.ok.inj hlen).symm⟩

/-- **The direct backend ends the file with the buffer**, whatever was behind it. -/
theorem directWriteAt_ok {k : WriteKernel} {file new : List UInt8} {offset n : UInt64} {buf : Buf}
    (h : directWriteAt k file offset buf = some (new, .ok n)) :
    new = resize 0 file offset.toNat ++ buf.bytes ∧ n = buf.len := by
  have hlen := buf.toNat_len
  have hlt := buf.length_lt
  rw [directWriteAt] at h
  by_cases haligned : offset % align ≠ 0
  · rw [if_pos haligned] at h
    exact absurd h nofun
  rw [if_neg haligned] at h
  obtain ⟨alignedLen, hup⟩ : ∃ alignedLen, alignedLen = (alignUp buf.len align).toNat := ⟨_, rfl⟩
  have hle : buf.bytes.length ≤ alignedLen := by
    rw [hup, ← hlen]
    exact le_toNat_alignUp (by omega)
  simp only [← hup] at h
  cases hopen : k.openFile with
  | error e =>
      simp only [hopen] at h
      exact absurd h nofun
  | ok _ =>
  cases halloc : k.memalign alignedLen with
  | error e =>
      simp only [hopen, halloc] at h
      exact absurd h nofun
  | ok _ =>
  simp only [hopen, halloc] at h
  obtain ⟨aligned, hbuf⟩ : ∃ aligned, aligned =
    buf.bytes ++ List.replicate (alignedLen - buf.bytes.length) 0 := ⟨_, rfl⟩
  rw [← hbuf] at h
  split at h
  · exact absurd h nofun
  · exact absurd h nofun
  · rename_i written hloop
    obtain ⟨hwritten, hbound⟩ := writeLoop_ok (Nat.zero_le _) hloop
    have hlength : aligned.length = alignedLen := by
      rw [hbuf, List.length_append, List.length_replicate]
      omega
    -- the kernel has taken the last byte, so the end of the range is in bounds
    have hend : (offset + buf.len).toNat = offset.toNat + buf.bytes.length := by
      rw [UInt64.toNat_add, hlen]
      refine Nat.mod_eq_of_lt ?_
      by_cases hnil : buf.bytes.length = 0
      · have := offset.toNat_lt
        omega
      · have := hbound (by omega)
        omega
    simp only [hend] at h
    split at h
    · exact absurd h nofun
    · obtain ⟨rfl, hok⟩ := Prod.mk.inj (Option.some.inj h)
      refine ⟨?_, (Except.ok.inj hok).symm⟩
      rw [hwritten, Nat.add_zero, List.drop_zero, pwrite]
      split
      · rename_i hnil
        have hempty : buf.bytes = [] := (List.append_eq_nil_iff.mp (hbuf ▸ hnil)).1
        rw [hempty, List.length_nil, Nat.add_zero, List.append_nil]
      · rw [hbuf, resize_overwrite]

/-! ## What is left alone -/

/-- A call replaces its range, unless it has no bytes and the file does not reach up to it. -/
theorem pwrite_eq_overwrite_iff {file bytes : List UInt8} {offset : Nat} :
    pwrite file offset bytes = overwrite 0 file offset bytes ↔
      (bytes = [] → offset ≤ file.length) := by
  rw [pwrite]
  by_cases hnil : bytes = []
  · rw [if_pos hnil, hnil, eq_comm, overwrite_nil_eq_iff]
    exact ⟨fun h _ => h, fun h => h rfl⟩
  · rw [if_neg hnil]
    exact ⟨fun _ h => absurd h hnil, fun _ => rfl⟩

theorem length_pwrite_le (file bytes : List UInt8) (offset : Nat) :
    (pwrite file offset bytes).length ≤ max (offset + bytes.length) file.length := by
  rw [pwrite]
  split
  · exact le_max_right _ _
  · rw [length_overwrite]

/-- When a successful write of a backend replaces its range and does nothing else. -/
def Backend.Meets (file : List UInt8) (offset : UInt64) (buf : Buf) : Backend → Prop
  | .blocking => buf.bytes = [] → offset.toNat ≤ file.length
  | .direct => file.length ≤ offset.toNat + buf.bytes.length
  | .uring => offset ≠ -1 ∧ (buf.bytes = [] → offset.toNat ≤ file.length)

/-- **One write.** -/
theorem writeAt_touches_iff {b : Backend} {k : WriteKernel} {file new : List UInt8}
    {offset n : UInt64} {buf : Buf} (hfile : b = .uring → file.length < 2 ^ 63)
    (h : b.writeAt k file offset buf = some (new, .ok n)) :
    new = overwrite 0 file offset.toNat buf.bytes ↔ b.Meets file offset buf := by
  cases b with
  | blocking => rw [(writeAt_ok h).1, pwrite_eq_overwrite_iff, Backend.Meets]
  | direct => rw [(directWriteAt_ok h).1, overwrite_eq_append_iff, Backend.Meets]
  | uring =>
      rw [(uringWriteAt_ok h).1, Backend.Meets]
      by_cases hcurrent : offset = -1
      · -- the file stays shorter than the offset
        have hshort := length_pwrite_le file buf.bytes 0
        have hlong := length_overwrite 0 file offset.toNat buf.bytes
        have hlt := buf.length_lt
        have hfile := hfile rfl
        have hoffset : offset.toNat = 2 ^ 64 - 1 := by
          rw [hcurrent]
          rfl
        rw [if_pos hcurrent]
        refine ⟨fun heq => ?_, fun hand => absurd hcurrent hand.1⟩
        rw [heq] at hshort
        omega
      · rw [if_neg hcurrent, pwrite_eq_overwrite_iff]
        exact ⟨fun hnil => ⟨hcurrent, hnil⟩, And.right⟩

/-! ## Sequences of operations -/

inductive Op
  | create
  | writeAt (offset : UInt64) (buf : Buf)

/-- An operation of a backend; `create` truncates on each of them. -/
def Backend.apply (b : Backend) (k : WriteKernel) (file : List UInt8) :
    Op → Option (List UInt8 × Except String Unit)
  | .create =>
      match k.openFile with
      | .error e => some (file, .error e)
      | .ok () => some ([], .ok ())
  | .writeAt offset buf =>
      (b.writeAt k file offset buf).map fun (file, written) => (file, written.map fun _ => ())

/-- The file after each operation of a sequence, if all succeed. -/
def Backend.run (b : Backend) (k : Nat → WriteKernel) : Nat → List UInt8 → List Op →
    Option (List (List UInt8))
  | _, _, [] => some []
  | step, file, op :: ops =>
      match b.apply (k step) file op with
      | some (file', .ok ()) => (b.run k (step + 1) file' ops).map (file' :: ·)
      | _ => none

/-- What an operation is for. -/
def Op.meaning (file : List UInt8) : Op → List UInt8
  | .create => []
  | .writeAt offset buf => overwrite 0 file offset.toNat buf.bytes

/-- The files after each operation when all writes replace their ranges. -/
def meanings : List UInt8 → List Op → List (List UInt8)
  | _, [] => []
  | file, op :: ops => op.meaning file :: meanings (op.meaning file) ops

def Op.Meets (file : List UInt8) : Op → Prop
  | .create => True
  | .writeAt offset buf => Backend.blocking.Meets file offset buf ∧ Backend.direct.Meets file offset buf

/-- Every write of a sequence meets the condition of both backends. -/
def RunMeets : List UInt8 → List Op → Prop
  | _, [] => True
  | file, op :: ops => op.Meets file ∧ RunMeets (op.meaning file) ops

/-- The first operation of a run, and the rest. -/
theorem Backend.run_cons {b : Backend} {k : Nat → WriteKernel} {step : Nat} {file : List UInt8}
    {op : Op} {ops : List Op} {files : List (List UInt8)}
    (h : b.run k step file (op :: ops) = some files) :
    ∃ file' rest, b.apply (k step) file op = some (file', .ok ()) ∧
      b.run k (step + 1) file' ops = some rest ∧ files = file' :: rest := by
  rw [run] at h
  split at h
  · rename_i file' happly
    obtain ⟨rest, hrest, rfl⟩ := Option.map_eq_some_iff.mp h
    exact ⟨file', rest, happly, hrest, rfl⟩
  · exact absurd h nofun

/-- **One operation on both backends.** -/
theorem apply_agree {kd kb : WriteKernel} {file fd fb : List UInt8} {op : Op}
    (hd : Backend.direct.apply kd file op = some (fd, .ok ()))
    (hb : Backend.blocking.apply kb file op = some (fb, .ok ())) :
    (fd = fb ↔ op.Meets file) ∧ (op.Meets file → fb = op.meaning file) := by
  cases op with
  | create =>
      have hempty : ∀ {k : WriteKernel} {b : Backend} {new : List UInt8},
          b.apply k file .create = some (new, .ok ()) → new = [] := by
        intro k b new h
        rw [Backend.apply] at h
        split at h
        · exact absurd h nofun
        · exact (Prod.mk.inj (Option.some.inj h)).1.symm
      rw [hempty hd, hempty hb]
      exact ⟨⟨fun _ => trivial, fun _ => rfl⟩, fun _ => rfl⟩
  | writeAt offset buf =>
      have hwritten : ∀ {k : WriteKernel} {b : Backend} {new : List UInt8},
          b.apply k file (.writeAt offset buf) = some (new, .ok ()) →
            ∃ n, b.writeAt k file offset buf = some (new, .ok n) := by
        intro k b new h
        obtain ⟨⟨file', written⟩, hwrite, heq⟩ := Option.map_eq_some_iff.mp h
        obtain ⟨rfl, hresult⟩ := Prod.mk.inj heq
        cases written with
        | error e => exact absurd hresult nofun
        | ok n => exact ⟨n, hwrite⟩
      obtain ⟨n, hwriteD⟩ := hwritten hd
      obtain ⟨m, hwriteB⟩ := hwritten hb
      have hmeetsD := @writeAt_touches_iff .direct kd file fd offset n buf nofun hwriteD
      have hmeetsB := @writeAt_touches_iff .blocking kb file fb offset m buf nofun hwriteB
      refine ⟨⟨fun heq => ?_, fun hmeets => ?_⟩, fun hmeets => hmeetsB.mpr hmeets.1⟩
      · rw [(directWriteAt_ok hwriteD).1, (writeAt_ok hwriteB).1] at heq
        by_cases hnil : buf.bytes = []
        · -- the direct backend has set the length to the offset
          rw [pwrite, if_pos hnil, hnil, List.append_nil] at heq
          have hlength : offset.toNat = file.length := by
            rw [← heq, length_resize]
          exact ⟨fun _ => hlength.le, by rw [Backend.Meets]; omega⟩
        · rw [pwrite, if_neg hnil] at heq
          exact ⟨fun h => absurd h hnil, overwrite_eq_append_iff.mp heq⟩
      · rw [hmeetsD.mpr hmeets.2, hmeetsB.mpr hmeets.1]

/-- **A sequence on both backends**, from one file. -/
theorem run_agree {kd kb : Nat → WriteKernel} {step : Nat} {file : List UInt8} {ops : List Op}
    {ds bs : List (List UInt8)} (hd : Backend.direct.run kd step file ops = some ds)
    (hb : Backend.blocking.run kb step file ops = some bs) :
    (ds = bs ↔ RunMeets file ops) ∧ (RunMeets file ops → bs = meanings file ops) := by
  induction ops generalizing step file ds bs with
  | nil =>
      obtain rfl := Option.some.inj hd
      obtain rfl := Option.some.inj hb
      exact ⟨⟨fun _ => trivial, fun _ => rfl⟩, fun _ => rfl⟩
  | cons op ops ih =>
      obtain ⟨fd, ds, happlyD, hrestD, rfl⟩ := Backend.run_cons hd
      obtain ⟨fb, bs, happlyB, hrestB, rfl⟩ := Backend.run_cons hb
      obtain ⟨hiff, hmeaning⟩ := apply_agree happlyD happlyB
      constructor
      · constructor
        · intro heq
          obtain ⟨hfile, hrest⟩ := List.cons.inj heq
          have hmeets := hiff.mp hfile
          rw [hfile, hmeaning hmeets] at hrestD
          rw [hmeaning hmeets] at hrestB
          exact ⟨hmeets, (ih hrestD hrestB).1.mp hrest⟩
        · intro ⟨hmeets, hrunMeets⟩
          rw [hiff.mpr hmeets, hmeaning hmeets] at hrestD
          rw [hmeaning hmeets] at hrestB
          rw [hiff.mpr hmeets, (ih hrestD hrestB).1.mpr hrunMeets]
      · intro ⟨hmeets, hrunMeets⟩
        rw [hiff.mpr hmeets, hmeaning hmeets] at hrestD
        rw [hmeaning hmeets] at hrestB
        rw [hmeaning hmeets, (ih hrestD hrestB).2 hrunMeets, meanings]

/-- **When the backends agree.** Whatever the kernel does, a successful write of a backend replaces its
range and leaves the rest of the file alone exactly when it meets the backend's condition, and sequences
of operations that succeed on the direct and on the blocking backend leave the same files exactly when
every write meets the conditions of both. -/
theorem writes_agree_iff (file : List UInt8) :
    (∀ (b : Backend) (k : WriteKernel) (new : List UInt8) (offset n : UInt64) (buf : Buf),
      (b = .uring → file.length < 2 ^ 63) → b.writeAt k file offset buf = some (new, .ok n) →
        (new = overwrite 0 file offset.toNat buf.bytes ↔ b.Meets file offset buf)) ∧
    ∀ (kd kb : Nat → WriteKernel) (ops : List Op) (ds bs : List (List UInt8)),
      Backend.direct.run kd 0 file ops = some ds → Backend.blocking.run kb 0 file ops = some bs →
        (ds = bs ↔ RunMeets file ops) ∧ (RunMeets file ops → bs = meanings file ops) := by
  refine ⟨fun b k new offset n buf => writeAt_touches_iff, ?_⟩
  exact fun kd kb ops ds bs => run_agree

/-- A kernel that writes everything at once. -/
def allAtOnce : WriteKernel where
  openFile := .ok ()
  memalign _ := .ok ()
  answer _ offset len := if offset + len < 2 ^ 63 then .ok len else .error "Invalid argument"
  setLen len := if len < 2 ^ 63 then .ok () else .error "Invalid argument"
  le_len _ offset len n h := by
    split at h
    · exact (Except.ok.inj h).ge
    · exact absurd h nofun
  end_lt _ offset len n h := by
    split at h
    · rename_i hlt
      exact Except.ok.inj h ▸ hlt
    · exact absurd h nofun

/-- A kernel that takes everything at once ends the loop after one call. -/
theorem writeLoop_allAtOnce {zero : String} {offset rounds : Nat} {buf file : List UInt8}
    (hbuf : buf ≠ []) (hend : offset + buf.length < 2 ^ 63) :
    writeLoop allAtOnce zero offset buf (rounds + 2) 0 0 file =
      some (pwrite file offset buf, .ok ()) := by
  have hpos : 0 < buf.length := List.length_pos_iff.mpr hbuf
  have hanswer : allAtOnce.answer 0 (offset + 0) (buf.length - 0) = .ok buf.length := if_pos hend
  rw [writeLoop, if_pos hpos, hanswer]
  dsimp only
  rw [if_neg hpos.ne', slice_all rfl, writeLoop, if_neg (by omega), Nat.add_zero]

/-- The direct backend over such a kernel leaves a file that holds the buffer alone. -/
theorem direct_writeAt_allAtOnce (file : List UInt8) {buf : Buf} {n : UInt64} (hbuf : buf.bytes ≠ [])
    (hn : buf.len = n) (hlt : (alignUp n align).toNat < 2 ^ 63) :
    Backend.direct.writeAt allAtOnce file 0 buf = some (buf.bytes, .ok n) := by
  subst hn
  have hlen := buf.toNat_len
  have hbytes := buf.length_lt
  obtain ⟨rounds, hup⟩ : ∃ rounds, (alignUp buf.len align).toNat = rounds + 1 := by
    refine Nat.exists_eq_add_one.mpr ((List.length_pos_iff.mpr hbuf).trans_le ?_)
    rw [← hlen]
    exact le_toNat_alignUp (by omega)
  have hle : buf.bytes.length ≤ rounds + 1 := by
    rw [← hup, ← hlen]
    exact le_toNat_alignUp (by omega)
  -- the padding up to the aligned length, which the final `set_len` cuts off again
  obtain ⟨zeros, hzeros⟩ :
      ∃ zeros, zeros = List.replicate (rounds + 1 - buf.bytes.length) (0 : UInt8) := ⟨_, rfl⟩
  have hlength : (buf.bytes ++ zeros).length = rounds + 1 := by
    rw [hzeros, List.length_append, List.length_replicate]
    omega
  have hloop := @writeLoop_allAtOnce "O_DIRECT pwrite returned zero" 0 rounds _ file
    (List.append_ne_nil_of_left_ne_nil hbuf zeros) (by omega)
  have hset : allAtOnce.setLen buf.bytes.length = .ok () := if_pos (by omega)
  rw [Backend.writeAt, directWriteAt, if_neg (by decide)]
  simp only [hup, ← hzeros, UInt64.zero_add, hlen, hset, UInt64.toNat_zero, hloop]
  dsimp only [allAtOnce]
  rw [pwrite, if_neg (List.append_ne_nil_of_left_ne_nil hbuf zeros)]
  have hresize := resize_overwrite 0 file 0 buf.bytes zeros
  rw [Nat.zero_add] at hresize
  rw [hresize, resize_of_le (Nat.zero_le _)]
  rfl

/-- The second byte of a file is lost when the first one is written. -/
theorem direct_write_truncates :
    ¬∀ (k : WriteKernel) (file new : List UInt8) (offset n : UInt64) (buf : Buf),
      Backend.direct.writeAt k file offset buf = some (new, .ok n) →
        new = overwrite 0 file offset.toNat buf.bytes := by
  intro h
  have hwrite : Backend.direct.writeAt allAtOnce [1, 2] 0 ⟨[9], by decide⟩ = some ([9], .ok 1) :=
    direct_writeAt_allAtOnce [1, 2] nofun rfl (by decide)
  exact absurd (h allAtOnce [1, 2] [9] 0 1 ⟨[9], by decide⟩ hwrite) (by decide)

/-- A write that covers the file, on both backends. -/
theorem writes_agree_iff_covering :
    [9, 9] = overwrite (0 : UInt8) [1, 2] 0 [9, 9] ∧
      RunMeets [1, 2] [.writeAt 0 ⟨[9, 9], by decide⟩] := by
  have hdirect : Backend.direct.writeAt allAtOnce [1, 2] 0 ⟨[9, 9], by decide⟩ =
      some ([9, 9], .ok 2) :=
    direct_writeAt_allAtOnce [1, 2] nofun rfl (by decide)
  have hwrite := ((writes_agree_iff [1, 2]).1 .direct allAtOnce [9, 9] 0 2 ⟨[9, 9], by decide⟩ nofun
    hdirect).mpr (by rw [Backend.Meets]; decide)
  have hrunDirect : Backend.direct.run (fun _ => allAtOnce) 0 [1, 2]
      [.writeAt 0 ⟨[9, 9], by decide⟩] = some [[9, 9]] := by
    rw [Backend.run, Backend.apply, hdirect]
    rfl
  have hrun := ((writes_agree_iff [1, 2]).2 (fun _ => allAtOnce) (fun _ => allAtOnce)
    [.writeAt 0 ⟨[9, 9], by decide⟩] [[9, 9]] [[9, 9]] hrunDirect (by decide +kernel)).1.mp rfl
  exact ⟨hwrite, hrun⟩

end Io

end LsmGraph
