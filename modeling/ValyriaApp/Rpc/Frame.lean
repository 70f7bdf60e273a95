import Mathlib.Data.List.TakeWhile
import ValyriaApp.Lib.Incremental
import ValyriaApp.Lib.Utf8
import ValyriaApp.Rpc.Message

/-! # Content-Length framing

Each side writes a header with the length of the body in bytes, a blank line
and the body. The host reads headers byte by byte; the client keeps a buffer
and the length of the body it waits for, and takes whatever chunks arrive.
-/

namespace ValyriaApp.Rpc
open Lib

def crlf : Bytes := [13, 10, 13, 10]

def label : List Char := "Content-Length:".toList

/-- The text `Content-Length: n`. -/
def headerText (n : ℕ) : List Char := label ++ ' ' :: Nat.toDigits 10 n

theorem label_length : label.length = 15 := by decide
theorem label_lower : label.map Char.toLower = "content-length:".toList := by decide +kernel

/-! ## The host -/

/-- `write_frame`. -/
def Serde.writeFrame (S : Serde) (msg : Outgoing) : Bytes :=
  let body := S.toVec msg.json
  Utf8.ascii (headerText body.length) ++ crlf ++ body

inductive ErrorKind where
  | unexpectedEof
  | invalidData
  deriving DecidableEq

structure IoError where
  kind : ErrorKind
  message : String
  deriving DecidableEq

/-- `read` of one byte from a reader that has its input in chunks. -/
def readByte : List Bytes → Option (UInt8 × List Bytes)
  | [] => none
  | [] :: r => readByte r
  | (b :: c) :: r => some (b, c :: r)

def readExact (n : ℕ) : List Bytes → Option (Bytes × List Bytes)
  | [] => if n = 0 then some ([], []) else none
  | c :: r =>
    if n ≤ c.length then some (c.take n, c.drop n :: r)
    else (readExact (n - c.length) r).map fun p => (c ++ p.1, p.2)

theorem readByte_eq_none {r : List Bytes} (h : readByte r = none) : r.flatten = [] := by
  induction r with
  | nil => rfl
  | cons c r ih =>
    cases c with
    | nil => exact ih h
    | cons b c => cases h

theorem flatten_of_readByte {r r' : List Bytes} {b : UInt8} (h : readByte r = some (b, r')) :
    r.flatten = b :: r'.flatten := by
  induction r with
  | nil => cases h
  | cons c r ih =>
    cases c with
    | nil => exact ih h
    | cons a c =>
      cases h
      rfl

theorem readExact_eq_some {r : List Bytes} {body rest : Bytes} (h : r.flatten = body ++ rest) :
    ∃ r', readExact body.length r = some (body, r') ∧ r'.flatten = rest := by
  induction r generalizing body with
  | nil =>
    obtain ⟨rfl, rfl⟩ := List.append_eq_nil_iff.mp h.symm
    exact ⟨[], rfl, rfl⟩
  | cons c r ih =>
    rw [List.flatten_cons] at h
    rw [readExact]
    split_ifs with hlen
    · obtain ⟨t, rfl⟩ : body <+: c :=
        List.prefix_of_prefix_length_le (h ▸ List.prefix_append body rest)
          (List.prefix_append c r.flatten) hlen
      refine ⟨t :: r, by simp, ?_⟩
      rw [List.append_assoc] at h
      exact List.append_cancel_left h
    · obtain ⟨t, rfl⟩ : c <+: body :=
        List.prefix_of_prefix_length_le (h ▸ List.prefix_append c r.flatten)
          (List.prefix_append body rest) (by omega)
      rw [List.append_assoc] at h
      obtain ⟨r', hr', hrest⟩ := ih (List.append_cancel_left h)
      refine ⟨r', ?_, hrest⟩
      rw [List.length_append, Nat.add_sub_cancel_left, hr']
      rfl

/-- The header loop of `read_frame`: nothing at the end of the input, and otherwise the bytes up to
the blank line; with what is left of the input. -/
def readHeader (header : Bytes) (r : List Bytes) : Except IoError (Option Bytes) × List Bytes :=
  match _h : readByte r with
  | none =>
    (if header = [] then .ok none else .error ⟨.unexpectedEof, "EOF mid-header"⟩, r)
  | some (b, r') =>
    let header := header ++ [b]
    if crlf <:+ header then (.ok (some header), r')
    else if 8192 < header.length then (.error ⟨.invalidData, "header too large"⟩, r')
    else readHeader header r'
termination_by r.flatten.length
decreasing_by
  rw [flatten_of_readByte _h]
  exact Nat.lt_succ_self _

/-- `str::split` at line ends. -/
def lines : List Char → List (List Char)
  | [] => [[]]
  | '\r' :: '\n' :: cs => [] :: lines cs
  | c :: cs => match lines cs with
    | [] => [[c]]
    | l :: ls => (c :: l) :: ls

def stripPrefix (p cs : List Char) : Option (List Char) :=
  if p <+: cs then some (cs.drop p.length) else none

/-- The characters `str::trim` removes. -/
def isWhitespace (c : Char) : Bool :=
  (0x9 ≤ c.toNat && c.toNat ≤ 0xD) || (0x2000 ≤ c.toNat && c.toNat ≤ 0x200A) ||
    c.toNat ∈ [0x20, 0x85, 0xA0, 0x1680, 0x2028, 0x2029, 0x202F, 0x205F, 0x3000]

def trim (cs : List Char) : List Char :=
  ((cs.dropWhile isWhitespace).reverse.dropWhile isWhitespace).reverse

/-- `parse::<usize>` on a 64-bit machine. -/
def parseUsize (cs : List Char) : Option ℕ :=
  let ds := match cs with
    | '+' :: ds => ds
    | ds => ds
  if ds ≠ [] ∧ ds.all Char.isDigit ∧ Nat.ofDigitChars 10 ds 0 < 2 ^ 64 then
    some (Nat.ofDigitChars 10 ds 0)
  else none

/-- The length the last `Content-Length` line of a header gives. -/
def headerLength (header : List Char) : Option ℕ :=
  (lines header).foldl (fun len line =>
    match stripPrefix label line with
    | some v => parseUsize (trim v)
    | none => len) none

/-- `read_frame`, with what is left of the input. -/
def Serde.readFrame (S : Serde) (r : List Bytes) :
    Except IoError (Option Incoming) × List Bytes :=
  match readHeader [] r with
  | (.error e, r) => (.error e, r)
  | (.ok none, r) => (.ok none, r)
  | (.ok (some header), r) =>
    match headerLength (Utf8.fromUtf8Lossy header) with
    | none => (.error ⟨.invalidData, "no Content-Length"⟩, r)
    | some len =>
      match readExact len r with
      | none => (.error ⟨.unexpectedEof, "early eof"⟩, [])
      | some (body, r) =>
        match S.fromSlice body with
        | .error e => (.error ⟨.invalidData, "bad JSON body: " ++ e⟩, r)
        | .ok incoming => (.ok (some incoming), r)

/-- The results of successive calls. -/
def Serde.readFrames (S : Serde) : ℕ → List Bytes → List (Except IoError (Option Incoming))
  | 0, _ => []
  | n + 1, r => (S.readFrame r).1 :: S.readFrames n (S.readFrame r).2

/-! ## The client -/

/-- `JsonRpcClient.write`. -/
def Serde.write (S : Serde) (msg : Request) : Bytes :=
  let body := S.stringify msg.json
  Utf8.ascii (headerText body.length) ++ crlf ++ body

/-- What `onData` keeps beside the buffer. -/
structure Framing where
  contentLength : Num
  closed : Bool

def noLength : Num := .fin (-1)

theorem noLength_lt : noLength < 0 := by decide +kernel

/-- `toString("ascii")` drops the high bit of each byte. -/
def toAscii (bs : Bytes) : List Char := bs.map fun b => Char.ofNat (b.toNat % 128)

/-- `/Content-Length:\s*(\d+)/i` at the start of the text: its group. -/
def lengthHere (cs : List Char) : Option (List Char) :=
  if (cs.take 15).map Char.toLower = "content-length:".toList then
    match ((cs.drop 15).dropWhile Num.isSpace).takeWhile Char.isDigit with
    | [] => none
    | ds => some ds
  else none

/-- The group of the leftmost match. -/
def lengthGroup : List Char → Option (List Char)
  | [] => none
  | c :: cs => (lengthHere (c :: cs)).or (lengthGroup cs)

/-- How many bytes `subarray(0, n)` takes. -/
def count : Num → ℕ
  | .fin q => q.floor.toNat
  | _ => 0

theorem natCast_lt_fin {n : ℕ} {q : ℚ} : (n : Num) < .fin q ↔ (n : ℚ) < q := decide_eq_true_iff

theorem count_le {n : ℕ} {c : Num} (h : ¬ (n : Num) < c) : count c ≤ n := by
  cases c with
  | nan => exact Nat.zero_le n
  | inf neg => exact Nat.zero_le n
  | fin q =>
    rw [natCast_lt_fin, not_lt] at h
    have hfloor : (q.floor : ℚ) ≤ (n : ℤ) := (Rat.floor_le q).trans (by exact_mod_cast h)
    have := Rat.intCast_le_intCast.mp hfloor
    rw [count]
    omega

theorem not_lt_of_le {n m : ℕ} {c : Num} (h : ¬ (n : Num) < c) (hnm : n ≤ m) :
    ¬ (m : Num) < c := by
  cases c with
  | nan => exact h
  | inf neg => exact h
  | fin q =>
    rw [natCast_lt_fin, not_lt] at *
    exact h.trans (Nat.cast_le.mpr hnm)

theorem count_natCast (n : ℕ) : count n = n := by
  rw [Num.natCast_def, count, ← Rat.intCast_natCast, Rat.floor_intCast, Int.toNat_natCast]

/-- The second half of a turn of `onData`, when the length of the body is known. -/
def bodyTurn (f : Framing) (buffer : Bytes) : Turn Framing UInt8 Bytes :=
  if (buffer.length : Num) < f.contentLength then .wait f buffer
  else .go { f with contentLength := noLength } (buffer.take (count f.contentLength))
    (buffer.drop (count f.contentLength))

/-- One turn of the loop of `onData`; what it emits is dispatched. -/
def dataTurn (f : Framing) (buffer : Bytes) : Turn Framing UInt8 Bytes :=
  if f.contentLength < 0 then
    match splitFirst crlf buffer with
    | none => .wait f buffer
    | some (header, rest) =>
      match lengthGroup (toAscii header) with
      | none => .wait { f with closed := true } buffer
      | some ds => bodyTurn { f with contentLength := Num.ofDigits ds } rest
  else bodyTurn f buffer

section Turns

variable {f f' : Framing} {buffer rest body : Bytes}

theorem bodyTurn_go (h : bodyTurn f buffer = .go f' body rest) :
    f' = { f with contentLength := noLength } ∧ rest.length ≤ buffer.length ∧
      ∀ ys, bodyTurn f (buffer ++ ys) = .go f' body (rest ++ ys) := by
  rw [bodyTurn] at h
  split_ifs at h with hlen
  cases h
  refine ⟨rfl, by simp, fun ys => ?_⟩
  have hcount := count_le hlen
  rw [bodyTurn, if_neg (not_lt_of_le hlen (by simp)), List.take_append_of_le_length hcount,
    List.drop_append_of_le_length hcount]

theorem bodyTurn_wait (h : bodyTurn f buffer = .wait f' rest) : f' = f ∧ rest = buffer := by
  rw [bodyTurn] at h
  split_ifs at h
  cases h
  exact ⟨rfl, rfl⟩

theorem dataTurn_of_body (h : ¬ f.contentLength < 0) : dataTurn f buffer = bodyTurn f buffer :=
  if_neg h

theorem dataTurn_of_none (h : f.contentLength < 0) (hsplit : splitFirst crlf buffer = none) :
    dataTurn f buffer = .wait f buffer := by
  rw [dataTurn, if_pos h, hsplit]

theorem dataTurn_of_malformed {header : Bytes} (h : f.contentLength < 0)
    (hsplit : splitFirst crlf buffer = some (header, rest))
    (hgroup : lengthGroup (toAscii header) = none) :
    dataTurn f buffer = .wait { f with closed := true } buffer := by
  rw [dataTurn, if_pos h, hsplit]
  simp only [hgroup]

theorem dataTurn_of_header {header : Bytes} {ds : List Char} (h : f.contentLength < 0)
    (hsplit : splitFirst crlf buffer = some (header, rest))
    (hgroup : lengthGroup (toAscii header) = some ds) :
    dataTurn f buffer = bodyTurn { f with contentLength := Num.ofDigits ds } rest := by
  rw [dataTurn, if_pos h, hsplit]
  simp only [hgroup]

theorem length_of_splitFirst {header : Bytes} (h : splitFirst crlf buffer = some (header, rest)) :
    rest.length < buffer.length := by
  rw [eq_of_splitFirst h]
  simp [crlf]
  omega

/-- Emitting a body, a turn does the same before any further input. -/
theorem dataTurn_go (h : dataTurn f buffer = .go f' body rest) :
    f'.contentLength = noLength ∧ rest.length ≤ buffer.length ∧
      (f.contentLength < 0 → rest.length < buffer.length) ∧
      ∀ ys, dataTurn f (buffer ++ ys) = .go f' body (rest ++ ys) := by
  by_cases hlen : f.contentLength < 0
  case neg =>
    rw [dataTurn_of_body hlen] at h
    obtain ⟨rfl, hrest, happend⟩ := bodyTurn_go h
    refine ⟨rfl, hrest, fun h => absurd h hlen, fun ys => ?_⟩
    rw [dataTurn_of_body hlen, happend]
  case pos =>
    cases hsplit : splitFirst crlf buffer with
    | none =>
      rw [dataTurn_of_none hlen hsplit] at h
      cases h
    | some p =>
      obtain ⟨header, tail⟩ := p
      cases hgroup : lengthGroup (toAscii header) with
      | none =>
        rw [dataTurn_of_malformed hlen hsplit hgroup] at h
        cases h
      | some ds =>
        rw [dataTurn_of_header hlen hsplit hgroup] at h
        obtain ⟨rfl, hrest, happend⟩ := bodyTurn_go h
        have hlt := length_of_splitFirst hsplit
        refine ⟨rfl, by omega, fun _ => by omega, fun ys => ?_⟩
        rw [dataTurn_of_header hlen (splitFirst_append hsplit ys) hgroup, happend]

/-- Waiting, a turn has read nothing it would read otherwise with further input. -/
theorem dataTurn_wait (h : dataTurn f buffer = .wait f' rest) (ys : Bytes) :
    dataTurn f' (rest ++ ys) = dataTurn f (buffer ++ ys) := by
  by_cases hlen : f.contentLength < 0
  case neg =>
    rw [dataTurn_of_body hlen] at h
    obtain ⟨rfl, rfl⟩ := bodyTurn_wait h
    rfl
  case pos =>
    cases hsplit : splitFirst crlf buffer with
    | none =>
      rw [dataTurn_of_none hlen hsplit] at h
      cases h
      rfl
    | some p =>
      obtain ⟨header, tail⟩ := p
      have hsplit' := splitFirst_append hsplit ys
      cases hgroup : lengthGroup (toAscii header) with
      | none =>
        rw [dataTurn_of_malformed hlen hsplit hgroup] at h
        cases h
        rw [dataTurn_of_malformed hlen hsplit' hgroup]
        exact dataTurn_of_malformed hlen hsplit' hgroup
      | some ds =>
        rw [dataTurn_of_header hlen hsplit hgroup] at h
        obtain ⟨rfl, rfl⟩ := bodyTurn_wait h
        rw [dataTurn_of_header hlen hsplit' hgroup]
        exact dataTurn_of_body (Num.not_ofDigits_lt_zero ds)

end Turns

/-- The loop of `onData` as an incremental decoder. -/
def dataDecoder : StreamDecoder Framing UInt8 Bytes where
  turn := dataTurn
  rank f := if f.contentLength < 0 then 0 else 1
  go_lt := by
    intro f buffer f' body rest h
    obtain ⟨hlen, hle, hlt, -⟩ := dataTurn_go h
    rw [hlen, if_pos noLength_lt]
    split_ifs with hneg
    · exact hlt hneg
    · omega
  go_append := by
    intro f buffer f' body rest h
    exact (dataTurn_go h).2.2.2
  wait_append := by
    intro f buffer f' rest h
    exact dataTurn_wait h

/-- `onData`; the emitted bodies are dispatched in order. -/
def onData : Fed Framing UInt8 Bytes → Bytes → Fed Framing UInt8 Bytes := dataDecoder.feed

/-- A new client has an empty buffer and waits for a header. -/
def Framing.init : Fed Framing UInt8 Bytes := ⟨⟨noLength, false⟩, [], []⟩

/-! ## Round trips -/

/-- A framed body, as both sides write it. -/
def frame (body : Bytes) : Bytes := Utf8.ascii (headerText body.length) ++ crlf ++ body

theorem isDigit_bounds {c : Char} (h : c.isDigit = true) : 48 ≤ c.toNat ∧ c.toNat ≤ 57 := by
  simpa [Char.isDigit, UInt32.le_iff_toNat_le] using h

theorem digits_bounds (n : ℕ) : ∀ c ∈ Nat.toDigits 10 n, 48 ≤ c.toNat ∧ c.toNat ≤ 57 :=
  fun _ hc => isDigit_bounds (Nat.isDigit_of_mem_toDigits (by decide) (by decide) hc)

theorem headerText_ascii (n : ℕ) : ∀ c ∈ headerText n, c.toNat < 128 ∧ c.toNat ≠ 13 := by
  intro c hc
  rcases List.mem_append.mp hc with hc | hc
  · have hlabel : (label.all fun c => decide (c.toNat < 128 ∧ c.toNat ≠ 13)) = true := by decide
    exact of_decide_eq_true (List.all_eq_true.mp hlabel c hc)
  rcases List.mem_cons.mp hc with rfl | hc
  · decide
  · have := digits_bounds n c hc
    omega

theorem toAscii_ascii {cs : List Char} (h : ∀ c ∈ cs, c.toNat < 128) :
    toAscii (Utf8.ascii cs) = cs := by
  rw [toAscii, Utf8.ascii, List.map_map]
  refine (List.map_congr_left fun c hc => ?_).trans (List.map_id cs)
  rw [Function.comp_apply, Utf8.toNat_ofNat (h c hc), Nat.mod_eq_of_lt (h c hc), Char.ofNat_toNat]
  rfl

theorem cr_not_mem_header (n : ℕ) : 13 ∉ Utf8.ascii (headerText n) := by
  intro hmem
  obtain ⟨c, hc, heq⟩ := List.mem_map.mp hmem
  have hascii := headerText_ascii n c hc
  apply hascii.2
  rw [← Utf8.toNat_ofNat hascii.1, heq]
  rfl

theorem takeWhile_digits (n : ℕ) :
    (Nat.toDigits 10 n).takeWhile Char.isDigit = Nat.toDigits 10 n :=
  List.takeWhile_eq_self_iff.mpr fun _ => Nat.isDigit_of_mem_toDigits (by decide) (by decide)

theorem dropWhile_of_forall {p : Char → Bool} {cs : List Char} (h : ∀ c ∈ cs, p c = false) :
    cs.dropWhile p = cs := by
  cases cs with
  | nil => rfl
  | cons c cs => rw [List.dropWhile_cons_of_neg (by simp [h c List.mem_cons_self])]

theorem isSpace_digits (n : ℕ) : ∀ c ∈ Nat.toDigits 10 n, Num.isSpace c = false := by
  intro c hc
  have := digits_bounds n c hc
  simp [Num.isSpace]
  omega

theorem isWhitespace_digits (n : ℕ) : ∀ c ∈ Nat.toDigits 10 n, isWhitespace c = false := by
  intro c hc
  have := digits_bounds n c hc
  simp [isWhitespace]
  omega

theorem lengthGroup_headerText (n : ℕ) :
    lengthGroup (headerText n) = some (Nat.toDigits 10 n) := by
  have htake : ((headerText n).take 15).map Char.toLower = "content-length:".toList := by
    rw [headerText, ← label_length, List.take_left, label_lower]
  have hdrop : (headerText n).drop 15 = ' ' :: Nat.toDigits 10 n := by
    rw [headerText, ← label_length, List.drop_left]
  have hhere : lengthHere (headerText n) = some (Nat.toDigits 10 n) := by
    rw [lengthHere, if_pos htake, hdrop, List.dropWhile_cons_of_pos (by decide),
      dropWhile_of_forall (isSpace_digits n), takeWhile_digits]
    split
    · next h => exact absurd h Nat.toDigits_ne_nil
    · rfl
  cases hn : headerText n with
  | nil => cases hn
  | cons c cs => rw [lengthGroup, ← hn, hhere, Option.some_or]

/-- One framed body is one turn, whatever comes after it. -/
theorem dataTurn_frame {body : Bytes} (h : body.length < 2 ^ 53) (closed : Bool) (rest : Bytes) :
    dataTurn ⟨noLength, closed⟩ (frame body ++ rest) = .go ⟨noLength, closed⟩ body rest := by
  have hsplit : splitFirst crlf (frame body ++ rest) =
      some (Utf8.ascii (headerText body.length), body ++ rest) := by
    rw [frame, List.append_assoc]
    exact splitFirst_of_not_mem (cr_not_mem_header _)
  have hgroup : lengthGroup (toAscii (Utf8.ascii (headerText body.length))) =
      some (Nat.toDigits 10 body.length) := by
    rw [toAscii_ascii fun c hc => (headerText_ascii _ c hc).1, lengthGroup_headerText]
  rw [dataTurn_of_header noLength_lt hsplit hgroup, Num.ofDigits_toDigits h, bodyTurn,
    if_neg (by simp), count_natCast, List.take_left, List.drop_left]

theorem drain_frames {bodies : List Bytes} (h : ∀ body ∈ bodies, body.length < 2 ^ 53)
    (closed : Bool) :
    dataDecoder.drain ⟨noLength, closed⟩ (bodies.map frame).flatten =
      ⟨⟨noLength, closed⟩, [], bodies⟩ := by
  induction bodies with
  | nil =>
    have hsplit : splitFirst crlf [] = none := by decide
    have hturn : dataTurn ⟨noLength, closed⟩ [] = .wait ⟨noLength, closed⟩ [] :=
      dataTurn_of_none noLength_lt hsplit
    exact StreamDecoder.drain_of_wait (D := dataDecoder) hturn
  | cons body bodies ih =>
    have hturn : dataDecoder.turn ⟨noLength, closed⟩ (frame body ++ (bodies.map frame).flatten) =
        .go ⟨noLength, closed⟩ body (bodies.map frame).flatten :=
      dataTurn_frame (h body List.mem_cons_self) closed _
    rw [List.map_cons, List.flatten_cons, StreamDecoder.drain_of_go hturn,
      ih fun b hb => h b (List.mem_cons_of_mem body hb)]

/-! ### What the host reads -/

def crlfText : List Char := ['\r', '\n', '\r', '\n']

theorem lines_append {t : List Char} (h : '\r' ∉ t) (cs : List Char) :
    lines (t ++ '\r' :: '\n' :: cs) = t :: lines cs := by
  induction t with
  | nil => rfl
  | cons c t ih =>
    obtain ⟨hc, ht⟩ := (not_congr List.mem_cons).mp h |> not_or.mp
    rw [List.cons_append, lines, ih ht]
    rintro cs rfl
    exact absurd rfl hc

theorem trim_digits (n : ℕ) : trim (' ' :: Nat.toDigits 10 n) = Nat.toDigits 10 n := by
  have hreverse : ∀ c ∈ (Nat.toDigits 10 n).reverse, isWhitespace c = false :=
    fun c hc => isWhitespace_digits n c (List.mem_reverse.mp hc)
  rw [trim, List.dropWhile_cons_of_pos (by decide), dropWhile_of_forall (isWhitespace_digits n),
    dropWhile_of_forall hreverse, List.reverse_reverse]

theorem parseUsize_digits {n : ℕ} (h : n < 2 ^ 64) : parseUsize (Nat.toDigits 10 n) = some n := by
  have hall : (Nat.toDigits 10 n).all Char.isDigit = true :=
    List.all_eq_true.mpr fun _ => Nat.isDigit_of_mem_toDigits (by decide) (by decide)
  have hplus : ∀ ds, Nat.toDigits 10 n = '+' :: ds → False := by
    intro ds hds
    have := digits_bounds n '+' (hds ▸ List.mem_cons_self)
    exact absurd this (by decide)
  have hvalue : Nat.ofDigitChars 10 (Nat.toDigits 10 n) 0 < 2 ^ 64 := by
    rwa [Nat.ofDigitChars_ten_toDigits]
  rw [parseUsize, if_pos ⟨Nat.toDigits_ne_nil, hall, hvalue⟩, Nat.ofDigitChars_ten_toDigits]
  exact hplus

theorem headerLength_headerText {n : ℕ} (h : n < 2 ^ 64) :
    headerLength (headerText n ++ crlfText) = some n := by
  have hcr : '\r' ∉ headerText n := fun hmem => (headerText_ascii n _ hmem).2 rfl
  have hlines : lines (headerText n ++ crlfText) = [headerText n, [], []] := by
    rw [crlfText, lines_append hcr]
    rfl
  have hstrip : stripPrefix label (headerText n) = some (' ' :: Nat.toDigits 10 n) := by
    rw [headerText, stripPrefix, if_pos (List.prefix_append _ _), List.drop_left]
  have hempty : stripPrefix label [] = none := by decide
  simp only [headerLength, hlines, List.foldl_cons, List.foldl_nil, hstrip, hempty, trim_digits,
    parseUsize_digits h]

theorem eq_nil_of_marked {q h t m : Bytes} {a : UInt8} (ha : a ∉ h)
    (heq : q ++ a :: m ++ t = h ++ a :: m) : t = [] := by
  induction h generalizing q with
  | nil =>
    have hlen := congrArg List.length heq
    simp only [List.length_append, List.length_cons, List.length_nil] at hlen
    exact List.length_eq_zero_iff.mp (by omega)
  | cons b h ih =>
    obtain ⟨hb, hh⟩ := (not_congr List.mem_cons).mp ha |> not_or.mp
    cases q with
    | nil => exact absurd (List.cons.inj heq).1 hb
    | cons c q => exact ih hh (List.cons.inj heq).2

/-- The loop reads up to the blank line, wherever the reader splits its input. -/
theorem readHeader_eq {text : Bytes} (htext : 13 ∉ text) (hlen : (text ++ crlf).length ≤ 8192)
    {rest : Bytes} (header left : Bytes) (r : List Bytes) (hleft : left ≠ [])
    (hheader : header ++ left = text ++ crlf) (hr : r.flatten = left ++ rest) :
    ∃ r', readHeader header r = (.ok (some (text ++ crlf)), r') ∧ r'.flatten = rest := by
  induction left generalizing header r with
  | nil => exact absurd rfl hleft
  | cons b left ih =>
    rw [readHeader]
    split
    case h_1 h =>
      rw [readByte_eq_none h] at hr
      cases hr
    case h_2 c r' h =>
      rw [flatten_of_readByte h] at hr
      obtain ⟨rfl, hr'⟩ := List.cons.inj hr
      have hnext : header ++ [c] ++ left = text ++ crlf := by
        rw [← hheader, List.append_assoc]
        rfl
      have hshort : ¬ 8192 < (header ++ [c]).length := by
        have := congrArg List.length hnext
        rw [List.length_append] at this
        omega
      by_cases hmark : crlf <:+ header ++ [c]
      · obtain ⟨q, hq⟩ := hmark
        obtain rfl : left = [] := eq_nil_of_marked htext (hq ▸ hnext)
        rw [List.append_nil] at hnext
        refine ⟨r', ?_, hr'⟩
        rw [if_pos ⟨q, hq⟩, hnext]
      · have hne : left ≠ [] := by
          rintro rfl
          rw [List.append_nil] at hnext
          exact hmark (hnext ▸ List.suffix_append text crlf)
        rw [if_neg hmark, if_neg hshort]
        exact ih (header ++ [c]) r' hne hnext hr'

section Frames

variable (S : Serde) {r : List Bytes}

theorem header_length {n : ℕ} (h : n < 2 ^ 53) :
    (Utf8.ascii (headerText n) ++ crlf).length ≤ 8192 := by
  have hdigits : (Nat.toDigits 10 n).length ≤ 16 :=
    (Nat.length_toDigits_le_iff (by decide) (by decide)).mpr (by omega)
  simp [Utf8.ascii, headerText, label_length, crlf]
  omega

theorem header_decoded (n : ℕ) :
    Utf8.fromUtf8Lossy (Utf8.ascii (headerText n) ++ crlf) = headerText n ++ crlfText := by
  have hcrlf : crlf = Utf8.ascii crlfText := by decide
  have hascii : ∀ c ∈ headerText n ++ crlfText, c.toNat < 128 := by
    intro c hc
    rcases List.mem_append.mp hc with hc | hc
    · exact (headerText_ascii n c hc).1
    · have hend : (crlfText.all fun c => decide (c.toNat < 128)) = true := by decide
      exact of_decide_eq_true (List.all_eq_true.mp hend c hc)
  rw [hcrlf, Utf8.ascii, Utf8.ascii, ← List.map_append]
  exact Utf8.fromUtf8Lossy_ascii hascii

/-- A framed body is read as one message, and no further. -/
theorem readFrame_frame {body rest : Bytes} {incoming : Incoming} (hlen : body.length < 2 ^ 53)
    (hbody : S.fromSlice body = .ok incoming) (hr : r.flatten = frame body ++ rest) :
    ∃ r', S.readFrame r = (.ok (some incoming), r') ∧ r'.flatten = rest := by
  rw [frame, List.append_assoc] at hr
  have hne : Utf8.ascii (headerText body.length) ++ crlf ≠ [] := by simp [crlf]
  obtain ⟨r₁, hheader, hr₁⟩ := readHeader_eq (cr_not_mem_header _) (header_length hlen) [] _ r hne
    rfl hr
  obtain ⟨r₂, hexact, hr₂⟩ := readExact_eq_some hr₁
  refine ⟨r₂, ?_, hr₂⟩
  rw [Serde.readFrame, hheader]
  simp only [header_decoded, headerLength_headerText (hlen.trans (by decide)), hexact, hbody]

theorem readFrame_end (hr : r.flatten = []) : (S.readFrame r).1 = .ok none := by
  have hbyte : readByte r = none := by
    cases h : readByte r with
    | none => rfl
    | some p =>
      rw [flatten_of_readByte h] at hr
      cases hr
  have hheader : readHeader [] r = (.ok none, r) := by
    rw [readHeader]
    split
    · rfl
    · next h => rw [hbyte] at h; cases h
  rw [Serde.readFrame, hheader]

/-- Reading goes through the framed requests, however the reader splits them, and then reaches the
end of the input. -/
theorem readFrames_frames {requests : List Request}
    (hserde : ∀ q ∈ requests, S.CarriesRequest q)
    (hr : r.flatten = (requests.map fun q => frame (S.stringify q.json)).flatten) :
    S.readFrames (requests.length + 1) r =
      requests.map (fun q => .ok (some q.incoming)) ++ [.ok none] := by
  induction requests generalizing r with
  | nil =>
    rw [List.length_nil, Nat.zero_add, Serde.readFrames, readFrame_end S hr]
    rfl
  | cons q requests ih =>
    have hq := hserde q List.mem_cons_self
    obtain ⟨r', hread, hr'⟩ := readFrame_frame S hq.length_lt hq.fromSlice_stringify hr
    rw [List.length_cons, Serde.readFrames, hread,
      ih (fun p hp => hserde p (List.mem_cons_of_mem q hp)) hr']
    rfl

/-- What `write_frame` wrote is dispatched body by body, however it is chunked, and leaves the
client as it was. -/
theorem onData_frames {messages : List Outgoing} (hserde : ∀ m ∈ messages, S.Carries m)
    {chunks : List Bytes} (hchunks : chunks.flatten = (messages.map S.writeFrame).flatten) :
    chunks.foldl onData Framing.init =
      ⟨⟨noLength, false⟩, [], messages.map fun m => S.toVec m.json⟩ := by
  have hbodies : ∀ body ∈ messages.map (fun m => S.toVec m.json), body.length < 2 ^ 53 := by
    intro body hbody
    obtain ⟨m, hm, rfl⟩ := List.mem_map.mp hbody
    exact (hserde m hm).length_lt
  have hinit : Framing.init = dataDecoder.drain ⟨noLength, false⟩ [] :=
    (drain_frames (List.forall_mem_nil _) false).symm
  have hframes : messages.map S.writeFrame = (messages.map fun m => S.toVec m.json).map frame := by
    rw [List.map_map]
    rfl
  rw [hinit, onData, StreamDecoder.foldl_feed, List.nil_append, hchunks, hframes,
    drain_frames hbodies false]

/-- Framing loses, adds and reorders nothing, in either direction. -/
theorem framing_round_trip (messages : List Outgoing) (requests : List Request)
    (hserde : ∀ m ∈ messages, S.Carries m) (hserde' : ∀ q ∈ requests, S.CarriesRequest q)
    (chunks chunks' : List Bytes)
    (hchunks : chunks.flatten = (messages.map S.writeFrame).flatten)
    (hchunks' : chunks'.flatten = (requests.map S.write).flatten) :
    (chunks.foldl onData Framing.init).out = messages.map (fun m => S.toVec m.json) ∧
    (chunks.foldl onData Framing.init).out.map S.parse = messages.map (fun m => some m.json) ∧
    (chunks.foldl onData Framing.init).buffer = [] ∧
    (chunks.foldl onData Framing.init).state = ⟨noLength, false⟩ ∧
    S.readFrames (requests.length + 1) chunks' =
      requests.map (fun q => .ok (some q.incoming)) ++ [.ok none] := by
  have hparse : (messages.map fun m => S.toVec m.json).map S.parse =
      messages.map fun m => some m.json := by
    rw [List.map_map]
    exact List.map_congr_left fun m hm => (hserde m hm).parse_toVec
  rw [onData_frames S hserde hchunks]
  exact ⟨rfl, hparse, rfl, rfl, readFrames_frames S hserde' hchunks'⟩

end Frames

def aboutRequest : Request := ⟨1, "about/info", none⟩
def sessionRequest : Request := ⟨2, "session/status", none⟩
def aboutAnswer : Outgoing := .ok (.num 1) .null
def closedReport : Outgoing := .notification "core/closed" .null
def aboutBody : Bytes :=
  Utf8.ascii "\x7b\"jsonrpc\":\"2.0\",\"id\":1,\"method\":\"about/info\"\x7d".toList
def sessionBody : Bytes :=
  Utf8.ascii "\x7b\"jsonrpc\":\"2.0\",\"id\":2,\"method\":\"session/status\"\x7d".toList
def answerBody : Bytes := Utf8.ascii "\x7b\"jsonrpc\":\"2.0\",\"id\":1,\"result\":null\x7d".toList
def reportBody : Bytes := Utf8.ascii
  "\x7b\"jsonrpc\":\"2.0\",\"method\":\"core/closed\",\"params\":null\x7d".toList

/-- JSON as far as these four messages go. -/
def aboutSerde : Serde where
  toVec m := if (m.get? "id").isSome then answerBody else reportBody
  fromSlice bs :=
    if bs = aboutBody then .ok aboutRequest.incoming
    else if bs = sessionBody then .ok sessionRequest.incoming else .error "expected value"
  stringify m := match m.get? "method" with
    | some (.str "about/info") => aboutBody
    | _ => sessionBody
  parse bs :=
    if bs = answerBody then some aboutAnswer.json
    else if bs = reportBody then some closedReport.json else none

/-- An answer and a report in three chunks, one of them empty, and two requests read from two; the
chunks end inside the second message. -/
theorem framing_round_trip_about :
    let answers := ([aboutAnswer, closedReport].map aboutSerde.writeFrame).flatten
    let requests := ([aboutRequest, sessionRequest].map aboutSerde.write).flatten
    ([[], answers.take 70, answers.drop 70].foldl onData Framing.init).out =
      [answerBody, reportBody] ∧
    aboutSerde.readFrames 3 [requests.take 80, requests.drop 80] =
      [.ok (some aboutRequest.incoming), .ok (some sessionRequest.incoming), .ok none] := by
  intro answers requests
  have hanswers : ∀ m ∈ [aboutAnswer, closedReport], aboutSerde.Carries m := by
    simp only [List.mem_cons, List.not_mem_nil, or_false, forall_eq_or_imp, forall_eq]
    exact ⟨⟨rfl, by decide⟩, rfl, by decide⟩
  have hrequests : ∀ q ∈ [aboutRequest, sessionRequest], aboutSerde.CarriesRequest q := by
    simp only [List.mem_cons, List.not_mem_nil, or_false, forall_eq_or_imp, forall_eq]
    exact ⟨⟨rfl, by decide⟩, rfl, by decide⟩
  obtain ⟨hout, -, -, -, hread⟩ := framing_round_trip aboutSerde [aboutAnswer, closedReport]
    [aboutRequest, sessionRequest] hanswers hrequests [[], answers.take 70, answers.drop 70]
    [requests.take 80, requests.drop 80] (by simp [answers]) (by simp [requests])
  exact ⟨hout, hread⟩

end ValyriaApp.Rpc
