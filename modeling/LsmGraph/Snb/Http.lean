import LsmGraph.Library.ByteLayout
import LsmGraph.Library.FirstMatch
import LsmGraph.Snb.EdgeProps

/-! # The HTTP request reader

`read_http_request` of `snb/server.rs` over the chunks that the reads of a connection return. It grows
a buffer until the end of the header is in it, parses the header, and grows the buffer on until the body
is there. What it returns depends on the stream only, not on where the reads cut it
(`readHttpRequest_chunking`), except that an announced length near `2 ^ 64` overflows the end of the body
and ends in a panic (`readHttpRequest_returns_iff`). -/

namespace LsmGraph

open ByteLayout FirstMatch

namespace Http

/-! ## Text -/

/-- The ranges of the bytes that follow a first byte in UTF-8, if it is one. -/
def trailing (b : UInt8) : Option (List (UInt8 × UInt8)) :=
  let any := (0x80, 0xBF)
  if b < 0x80 then some []
  else if b < 0xC2 then none
  else if b < 0xE0 then some [any]
  else if b = 0xE0 then some [(0xA0, 0xBF), any]
  else if b = 0xED then some [(0x80, 0x9F), any]
  else if b < 0xF0 then some [any, any]
  else if b = 0xF0 then some [(0x90, 0xBF), any, any]
  else if b < 0xF4 then some [any, any, any]
  else if b = 0xF4 then some [(0x80, 0x8F), any, any]
  else none

/-- The bytes in the given ranges, up to the first that is not. -/
def continuation : List (UInt8 × UInt8) → List UInt8 → List UInt8
  | (low, high) :: ranges, b :: bytes =>
      if low ≤ b ∧ b ≤ high then b :: continuation ranges bytes else []
  | _, _ => []

/-- What stands for bytes that are no character. -/
def replacement : Char := Char.ofNat 0xFFFD

/-- The first character, and how many more bytes it has. An incomplete one is replaced as a whole. -/
def decodeFirst (b : UInt8) (bytes : List UInt8) : Char × Nat :=
  match trailing b with
  | none => (replacement, 0)
  | some ranges =>
      let more := continuation ranges bytes
      let first := if ranges = [] then b.toNat else b.toNat % 2 ^ (6 - ranges.length)
      if more.length = ranges.length then
        (Char.ofNat (more.foldl (fun code c => code * 64 + c.toNat % 64) first), more.length)
      else (replacement, more.length)

/-- The characters of the bytes behind the first `skip`. -/
def decodeFrom : Nat → List UInt8 → List Char
  | _, [] => []
  | skip + 1, _ :: bytes => decodeFrom skip bytes
  | 0, b :: bytes => (decodeFirst b bytes).1 :: decodeFrom (decodeFirst b bytes).2 bytes

/-- `String::from_utf8_lossy`. -/
def fromUtf8Lossy (bytes : List UInt8) : List Char := decodeFrom 0 bytes

example : fromUtf8Lossy [0x61, 0xC3, 0xA9, 0xE2, 0x82, 0x62] =
    ['a', Char.ofNat 0xE9, replacement, 'b'] := by decide

/-- The lines behind the characters of an unfinished one. A carriage return goes with the line feed. -/
def linesFrom : List Char → List Char → List (List Char)
  | line, [] => if line = [] then [] else [line]
  | line, c :: text =>
      if c = '\n' then
        (if line.getLast? = some '\r' then line.dropLast else line) :: linesFrom [] text
      else linesFrom (line ++ [c]) text

/-- `str::lines`. -/
def lines (text : List Char) : List (List Char) := linesFrom [] text

/-- `str::split_whitespace`. -/
def splitWhitespace (line : List Char) : List (List Char) :=
  (line.splitOnP isWhitespace).filter (· ≠ [])

/-- `str::split_once`. -/
def splitOnce (delimiter : Char) (line : List Char) : Option (List Char × List Char) :=
  if delimiter ∈ line then
    some (line.takeWhile (· ≠ delimiter), (line.dropWhile (· ≠ delimiter)).tail)
  else none

/-- `str::eq_ignore_ascii_case`. -/
def eqIgnoreAsciiCase (a b : List Char) : Bool := a.map Char.toLower == b.map Char.toLower

/-- `str::parse::<usize>`: an optional plus sign and digits, in range. -/
def parseUsize (text : List Char) : Option UInt64 :=
  let value :=
    match text with
    | '+' :: digits => Base.parseDigits digits
    | digits => Base.parseDigits digits
  (value.filter (· < 2 ^ 64)).map UInt64.ofNat

/-! ## The reader -/

inductive HttpRequest
  | get (path : String)
  | post (path : String) (body : List UInt8)
  deriving DecidableEq, Repr

/-- What the reader comes to. -/
inductive Outcome
  | request (request : HttpRequest)
  | error (message : String)
  | panic
  deriving DecidableEq, Repr

/-- What the reads of one connection return until it is closed. -/
structure Delivery where
  chunks : List (List UInt8)
  size : ∀ chunk ∈ chunks, chunk ≠ [] ∧ chunk.length ≤ 4096

def Delivery.stream (d : Delivery) : List UInt8 := d.chunks.flatten

def findHeaderEnd (buf : List UInt8) : Option Nat := firstMatch [13, 10, 13, 10] buf

/-- The loop that reads the header: its end, the buffer, and the chunks that are not read yet. -/
def readHeaders : List (List UInt8) → List UInt8 →
    Except String (Nat × List UInt8 × List (List UInt8))
  | [], _ => .error "connection closed before complete HTTP headers"
  | chunk :: chunks, buf =>
      let buf := buf ++ chunk
      match findHeaderEnd buf with
      | some pos => .ok (pos, buf, chunks)
      | none =>
          if 1024 * 1024 < buf.length then .error "HTTP headers too large"
          else readHeaders chunks buf

/-- The announced length, if the line has one. -/
def contentLength (field : List Char × List Char) : Option UInt64 :=
  if eqIgnoreAsciiCase field.1 "content-length".toList then parseUsize (trim field.2) else none

/-- The method, the path and the length of the body. -/
def parseHeader (header : List UInt8) : Except String (String × String × UInt64) :=
  match lines (fromUtf8Lossy header) with
  | [] => .error "empty HTTP request"
  | requestLine :: lines =>
      let parts := splitWhitespace requestLine
      let method := String.ofList (parts.getD 0 [])
      let path := String.ofList (parts.getD 1 [])
      let contentLen := ((lines.filterMap (splitOnce ':')).findSome? contentLength).getD 0
      .ok (method, path, contentLen)

/-- The loop that reads the body. -/
def readBody (bodyEnd : Nat) : List (List UInt8) → List UInt8 → Except String (List UInt8)
  | [], buf =>
      if buf.length < bodyEnd then .error "connection closed before complete HTTP body" else .ok buf
  | chunk :: chunks, buf =>
      if buf.length < bodyEnd then readBody bodyEnd chunks (buf ++ chunk) else .ok buf

def toRequest (method path : String) (body : List UInt8) : Outcome :=
  if method = "GET" then .request (.get path)
  else if method = "POST" then .request (.post path body)
  else .error s!"unsupported HTTP method: {method}"

/-- `read_http_request`, in a build with overflow checks or in one where sums wrap. -/
def readHttpRequest (overflowChecks : Bool) (d : Delivery) : Outcome :=
  match readHeaders d.chunks [] with
  | .error e => .error e
  | .ok (headerEnd, buf, chunks) =>
      match parseHeader (buf.take headerEnd) with
      | .error e => .error e
      | .ok (method, path, contentLen) =>
          let bodyStart := headerEnd + 4
          if overflowChecks ∧ 2 ^ 64 ≤ bodyStart + contentLen.toNat then .panic
          else
            let bodyEnd := (UInt64.ofNat bodyStart + contentLen).toNat
            match readBody bodyEnd chunks buf with
            | .error e => .error e
            | .ok buf =>
                -- the bounds of the slice
                if bodyStart ≤ bodyEnd ∧ bodyEnd ≤ buf.length then
                  toRequest method path (slice buf bodyStart (bodyEnd - bodyStart))
                else .panic

/-! ## The header loop -/

/-- No read goes beyond the limit before the header ends. -/
def InTime (chunks : List (List UInt8)) (buf : List UInt8) (p : Nat) : Prop :=
  ∀ read, read <+: chunks → 1024 * 1024 < (buf ++ read.flatten).length →
    p + 4 ≤ (buf ++ read.flatten).length

/-- Reading on, from a buffer within the limit. -/
theorem inTime_cons {chunk : List UInt8} {chunks : List (List UInt8)} {buf : List UInt8} {p : Nat}
    (hbuf : buf.length ≤ 1024 * 1024) :
    InTime (chunk :: chunks) buf p ↔ InTime chunks (buf ++ chunk) p := by
  constructor
  · intro h read hread
    have hlater := h (chunk :: read) ((List.prefix_cons_inj chunk).mpr hread)
    rw [List.flatten_cons, ← List.append_assoc] at hlater
    exact hlater
  · intro h read hread
    rcases List.prefix_cons_iff.mp hread with rfl | ⟨later, rfl, hlater⟩
    · rw [List.flatten_nil, List.append_nil]
      exact fun hlimit => absurd hbuf (Nat.not_le.mpr hlimit)
    · rw [List.flatten_cons, ← List.append_assoc]
      exact h later hlater

/-- **The header loop finds the first end of a header.** -/
theorem readHeaders_ok {chunks rest : List (List UInt8)} {buf buf' : List UInt8} {p : Nat}
    (hsize : ∀ chunk ∈ chunks, chunk.length ≤ 4096) (hbuf : buf.length ≤ 1024 * 1024)
    (h : readHeaders chunks buf = .ok (p, buf', rest)) :
    findHeaderEnd (buf ++ chunks.flatten) = some p ∧ InTime chunks buf p ∧
      buf' ++ rest.flatten = buf ++ chunks.flatten ∧ p + 4 ≤ buf'.length ∧
      buf'.length ≤ 1024 * 1024 + 4096 := by
  induction chunks generalizing buf with
  | nil => exact absurd h nofun
  | cons chunk chunks ih =>
      have hchunk := hsize chunk List.mem_cons_self
      rw [readHeaders] at h
      rw [List.flatten_cons, ← List.append_assoc]
      cases hfound : findHeaderEnd (buf ++ chunk) with
      | some pos =>
          rw [hfound] at h
          obtain ⟨rfl, hrest⟩ := Prod.mk.inj (Except.ok.inj h)
          obtain ⟨rfl, rfl⟩ := Prod.mk.inj hrest
          have hle : pos + 4 ≤ (buf ++ chunk).length := add_length_le hfound
          refine ⟨firstMatch_append (by decide) hfound _, ?_, rfl, hle, ?_⟩
          · -- the first read that may be beyond the limit has the end of the header
            rw [inTime_cons hbuf]
            intro read _ _
            rw [List.length_append]
            omega
          · rw [List.length_append]
            omega
      | none =>
          rw [hfound] at h
          dsimp only at h
          by_cases hlimit : 1024 * 1024 < (buf ++ chunk).length
          · rw [if_pos hlimit] at h
            exact absurd h nofun
          · rw [if_neg hlimit] at h
            obtain ⟨hp, hinTime, hrest⟩ :=
              ih (fun c hc => hsize c (List.mem_cons_of_mem _ hc)) (Nat.not_lt.mp hlimit) h
            exact ⟨hp, (inTime_cons hbuf).mpr hinTime, hrest⟩

/-- And it finds one that ends in time. -/
theorem readHeaders_of_inTime {chunks : List (List UInt8)} {buf : List UInt8} {p : Nat}
    (hnone : findHeaderEnd buf = none) (hp : findHeaderEnd (buf ++ chunks.flatten) = some p)
    (hin : InTime chunks buf p) : ∃ buf' rest, readHeaders chunks buf = .ok (p, buf', rest) := by
  induction chunks generalizing buf with
  | nil =>
      rw [List.flatten_nil, List.append_nil, hnone] at hp
      exact absurd hp nofun
  | cons chunk chunks ih =>
      rw [readHeaders]
      rw [List.flatten_cons, ← List.append_assoc] at hp
      cases hfound : findHeaderEnd (buf ++ chunk) with
      | some pos =>
          have hsame : findHeaderEnd _ = some pos := firstMatch_append (by decide) hfound chunks.flatten
          obtain rfl := Option.some.inj (hsame.symm.trans hp)
          exact ⟨_, _, rfl⟩
      | none =>
          have hshort : (buf ++ chunk).length < p + 4 := length_lt_of_firstMatch (by decide) hfound hp
          dsimp only
          by_cases hlimit : 1024 * 1024 < (buf ++ chunk).length
          · have hread := hin [chunk] ⟨chunks, rfl⟩ (by
              rw [List.flatten_singleton]
              exact hlimit)
            rw [List.flatten_singleton] at hread
            exact absurd hread (Nat.not_le.mpr hshort)
          · rw [if_neg hlimit]
            refine ih hfound hp ((inTime_cons ?_).mp hin)
            rw [List.length_append] at hlimit
            omega

/-! ## The body loop -/

theorem readBody_short {bodyEnd : Nat} {chunks : List (List UInt8)} {buf : List UInt8}
    (h : (buf ++ chunks.flatten).length < bodyEnd) :
    readBody bodyEnd chunks buf = .error "connection closed before complete HTTP body" := by
  induction chunks generalizing buf with
  | nil =>
      rw [List.flatten_nil, List.append_nil] at h
      rw [readBody, if_pos h]
  | cons chunk chunks ih =>
      rw [List.flatten_cons, ← List.append_assoc] at h
      have hbuf : buf.length < bodyEnd := by
        rw [List.length_append, List.length_append] at h
        omega
      rw [readBody, if_pos hbuf, ih h]

/-- **The body loop** reads a part of the stream that has the body. -/
theorem readBody_long {bodyEnd : Nat} {chunks : List (List UInt8)} {buf : List UInt8}
    (h : bodyEnd ≤ (buf ++ chunks.flatten).length) :
    ∃ buf' rest, readBody bodyEnd chunks buf = .ok buf' ∧ buf' ++ rest = buf ++ chunks.flatten ∧
      bodyEnd ≤ buf'.length := by
  induction chunks generalizing buf with
  | nil =>
      rw [List.flatten_nil, List.append_nil] at h ⊢
      rw [readBody, if_neg (Nat.not_lt.mpr h)]
      exact ⟨buf, [], rfl, List.append_nil buf, h⟩
  | cons chunk chunks ih =>
      rw [List.flatten_cons, ← List.append_assoc] at h ⊢
      rw [readBody]
      by_cases hshort : buf.length < bodyEnd
      · rw [if_pos hshort]
        exact ih h
      · rw [if_neg hshort]
        exact ⟨buf, chunk ++ chunks.flatten, rfl, (List.append_assoc _ _ _).symm, Nat.not_lt.mp hshort⟩

/-! ## What a request comes to -/

/-- The request of a stream whose header ends at `p`, as if the stream were there at once. -/
def requestOf (stream : List UInt8) (p : Nat) : Outcome :=
  match parseHeader (stream.take p) with
  | .error e => .error e
  | .ok (method, path, contentLen) =>
      if stream.length < p + 4 + contentLen.toNat then
        .error "connection closed before complete HTTP body"
      else toRequest method path (slice stream (p + 4) contentLen.toNat)

/-- The end of the announced body does not fit `usize`. -/
def Overflows (stream : List UInt8) (p : Nat) : Prop :=
  ∃ method path contentLen, parseHeader (stream.take p) = .ok (method, path, contentLen) ∧
    2 ^ 64 ≤ p + 4 + contentLen.toNat

/-- **One run of the reader**, on a stream whose header ends in time. -/
theorem readHttpRequest_eq {d : Delivery} {p : Nat} (checks : Bool)
    (hp : findHeaderEnd d.stream = some p) (hin : InTime d.chunks [] p) :
    (Overflows d.stream p → readHttpRequest checks d = .panic) ∧
      (¬ Overflows d.stream p → readHttpRequest checks d = requestOf d.stream p) := by
  obtain ⟨buf, rest, hheaders⟩ := readHeaders_of_inTime (p := p) rfl hp hin
  obtain ⟨-, -, hstream, hreached, hbound⟩ :=
    readHeaders_ok (fun chunk hc => (d.size chunk hc).2) (Nat.zero_le _) hheaders
  have hheader : buf.take p = d.stream.take p := by
    have hwhole : d.stream = buf ++ rest.flatten := hstream.symm
    rw [hwhole, List.take_append_of_le_length (by omega)]
  rw [readHttpRequest, hheaders, requestOf]
  dsimp only
  rw [hheader]
  cases hparsed : parseHeader (d.stream.take p) with
  | error e =>
      refine ⟨fun hover => ?_, fun _ => rfl⟩
      obtain ⟨method, path, contentLen, hok, -⟩ := hover
      rw [hparsed] at hok
      exact absurd hok nofun
  | ok parsed =>
      obtain ⟨method, path, contentLen⟩ := parsed
      dsimp only
      have hlen := contentLen.toNat_lt
      have hsum : (UInt64.ofNat (p + 4) + contentLen).toNat =
          (p + 4 + contentLen.toNat) % 2 ^ 64 := by
        rw [UInt64.toNat_add, UInt64.toNat_ofNat_of_lt' (show p + 4 < 2 ^ 64 by omega)]
      rw [hsum]
      constructor
      · intro hover
        obtain ⟨method', path', contentLen', hok, hbeyond⟩ := hover
        obtain rfl : contentLen = contentLen' := by
          rw [hparsed] at hok
          exact congrArg (fun parsed => parsed.2.2) (Except.ok.inj hok)
        cases checks with
        | true => rw [if_pos ⟨rfl, hbeyond⟩]
        | false =>
            -- the sum has wrapped to before the start of the body
            have hwrap : (p + 4 + contentLen.toNat) % 2 ^ 64 < p + 4 := by omega
            obtain ⟨buf', rest', hbody, -, -⟩ := @readBody_long
              ((p + 4 + contentLen.toNat) % 2 ^ 64) rest buf (by rw [List.length_append]; omega)
            rw [if_neg (fun hand => absurd hand.1 nofun), hbody]
            dsimp only
            rw [if_neg (by omega)]
      · intro hfits
        have hlt : p + 4 + contentLen.toNat < 2 ^ 64 := by
          by_contra hle
          exact hfits ⟨method, path, contentLen, hparsed, Nat.not_lt.mp hle⟩
        rw [if_neg (by omega), Nat.mod_eq_of_lt hlt]
        have hstream' : buf ++ rest.flatten = d.stream := hstream
        by_cases hshort : d.stream.length < p + 4 + contentLen.toNat
        · rw [if_pos hshort, readBody_short (by rw [hstream']; exact hshort)]
        · obtain ⟨buf', rest', hbody, hpart, hend⟩ := @readBody_long (p + 4 + contentLen.toNat)
            rest buf (by rw [hstream']; exact Nat.not_lt.mp hshort)
          rw [if_neg hshort, hbody]
          dsimp only
          -- what the buffer has beyond the body does not show
          rw [if_pos ⟨Nat.le_add_right _ _, hend⟩, Nat.add_sub_cancel_left, ← hstream', ← hpart, slice,
            slice, List.drop_append_of_le_length (by omega),
            List.take_append_of_le_length (by rw [List.length_drop]; omega)]

/-- **Packet boundaries do not matter.** -/
theorem readHttpRequest_chunking {stream : List UInt8} {p : Nat}
    (hp : findHeaderEnd stream = some p) (hin : p + 4 ≤ 1024 * 1024)
    (hfits : ¬ Overflows stream p) (checks checks' : Bool) {d d' : Delivery}
    (hd : d.stream = stream) (hd' : d'.stream = stream) :
    readHttpRequest checks d = readHttpRequest checks' d' ∧
      readHttpRequest checks d = requestOf stream p := by
  have hrun : ∀ {d : Delivery} (checks : Bool), d.stream = stream →
      readHttpRequest checks d = requestOf stream p := by
    intro d checks hd
    have hinTime : InTime d.chunks [] p := fun read _ hlimit => by omega
    rw [← hd] at hp hfits ⊢
    exact (readHttpRequest_eq checks hp hinTime).2 hfits
  exact ⟨(hrun checks hd).trans (hrun checks' hd').symm, hrun checks hd⟩

/-- A stream delivered in one read. -/
def inOneRead (stream : List UInt8) (h : stream ≠ [] ∧ stream.length ≤ 4096) : Delivery where
  chunks := [stream]
  size := by
    intro chunk hc
    rw [List.mem_singleton.mp hc]
    exact h

/-- A request, and a byte behind it. -/
def postHi : List UInt8 := "POST /q\r\nContent-Length: 2\r\n\r\nhi!".toUTF8.toList

/-- Cut in the end of its header and in its body. -/
def cutPostHi : Delivery where
  chunks := [postHi.take 25, slice postHi 25 3, postHi.drop 28]
  size := by decide +kernel

theorem readHttpRequest_chunking_cut :
    readHttpRequest true cutPostHi =
        readHttpRequest false (inOneRead postHi (by decide +kernel)) ∧
      readHttpRequest true cutPostHi = .request (.post "/q" "hi".toUTF8.toList) := by
  have hparsed : parseHeader (postHi.take 26) = .ok ("POST", "/q", 2) := by decide +kernel
  have hfits : ¬ Overflows postHi 26 := by
    rintro ⟨_, _, _, hok, hle⟩
    rw [hparsed] at hok
    cases hok
    exact absurd hle (by decide)
  obtain ⟨hsame, hrun⟩ := @readHttpRequest_chunking postHi 26 (by decide +kernel) (by decide) hfits
    true false cutPostHi (inOneRead postHi (by decide +kernel)) (by decide +kernel) (by decide +kernel)
  refine ⟨hsame, ?_⟩
  rw [hrun]
  decide +kernel

theorem requestOf_ne_panic (stream : List UInt8) (p : Nat) : requestOf stream p ≠ .panic := by
  rw [requestOf]
  split
  · exact nofun
  · split
    · exact nofun
    · rw [toRequest]
      split_ifs <;> exact nofun

/-- **When the reader returns** a request or an error. -/
theorem readHttpRequest_returns_iff (checks : Bool) (d : Delivery) :
    ((∃ request, readHttpRequest checks d = .request request) ∨
        ∃ message, readHttpRequest checks d = .error message) ↔
      ¬ ∃ p, findHeaderEnd d.stream = some p ∧ InTime d.chunks [] p ∧ Overflows d.stream p := by
  have hnotPanic : ((∃ request, readHttpRequest checks d = .request request) ∨
      ∃ message, readHttpRequest checks d = .error message) ↔ readHttpRequest checks d ≠ .panic := by
    cases readHttpRequest checks d with
    | request request => exact ⟨fun _ => nofun, fun _ => .inl ⟨request, rfl⟩⟩
    | error message => exact ⟨fun _ => nofun, fun _ => .inr ⟨message, rfl⟩⟩
    | panic => exact ⟨by rintro (⟨_, h⟩ | ⟨_, h⟩) <;> exact absurd h nofun, fun h => absurd rfl h⟩
  rw [hnotPanic]
  constructor
  · rintro hnot ⟨p, hp, hinTime, hover⟩
    exact hnot ((readHttpRequest_eq checks hp hinTime).1 hover)
  · intro hno
    cases hheaders : readHeaders d.chunks [] with
    | error e =>
        rw [readHttpRequest, hheaders]
        exact nofun
    | ok found =>
        obtain ⟨p, buf, rest⟩ := found
        obtain ⟨hp, hinTime, -⟩ :=
          readHeaders_ok (fun chunk hc => (d.size chunk hc).2) (Nat.zero_le _) hheaders
        have hp : findHeaderEnd d.stream = some p := hp
        rw [(readHttpRequest_eq checks hp hinTime).2 fun hover => hno ⟨p, hp, hinTime, hover⟩]
        exact requestOf_ne_panic _ _

/-- A request that announces the longest body there is. -/
def longestBody : List UInt8 :=
  "POST / HTTP/1.1\r\nContent-Length: 18446744073709551615\r\n\r\n".toUTF8.toList

/-- It ends the reader, with overflow checks and without. -/
theorem readHttpRequest_panics :
    ¬∀ (checks : Bool) (d : Delivery), (∃ request, readHttpRequest checks d = .request request) ∨
      ∃ message, readHttpRequest checks d = .error message := by
  intro h
  have hpanic : readHttpRequest false (inOneRead longestBody (by decide +kernel)) = .panic := by
    decide +kernel
  rcases h false (inOneRead longestBody (by decide +kernel)) with ⟨_, hreturns⟩ | ⟨_, hreturns⟩
  · exact absurd (hpanic.symm.trans hreturns) nofun
  · exact absurd (hpanic.symm.trans hreturns) nofun

end Http

end LsmGraph
