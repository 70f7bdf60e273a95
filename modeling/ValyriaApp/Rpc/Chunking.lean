import ValyriaApp.Rpc.Frame

/-! # Chunks and exceptions

The loop of `onData` dispatches a body as soon as it is complete. A body that
parses to `null` has no fields to read: the dispatch throws out of the loop and
the rest of the chunk waits for the next one. Without such a body the way the
bytes are cut into chunks does not matter.
-/

namespace ValyriaApp.Rpc
open Lib

def isJsonSpace (c : Char) : Bool := c ∈ [' ', '\t', '\n', '\r']

/-- `JSON.parse` of the text gives `null`. -/
def parsesToNull (body : Bytes) : Bool :=
  let text := (Utf8.fromUtf8Lossy body).dropWhile isJsonSpace
  (text.reverse.dropWhile isJsonSpace).reverse = "null".toList

/-- `dispatch` in a client that has no pending request and no handler: it reads `id` and `method` of
what it has parsed, and only `null` has no fields to read. -/
def dispatchThrows (body : Bytes) : Bool := parsesToNull body

abbrev Receiver := Fed Framing UInt8 Bytes × Bool

/-- `onData` with its dispatch; a throw leaves the rest of the buffer for the next call. -/
def receive : Receiver → Bytes → Receiver := dataDecoder.feedUntil dispatchThrows

def newReceiver : Receiver := (Framing.init, false)

/-! ## Frames -/

def FrameAt (buffer body rest : Bytes) : Prop :=
  ∃ header ds, splitFirst crlf buffer = some (header, body ++ rest) ∧
    lengthGroup (toAscii header) = some ds ∧ Num.ofDigits ds = (body.length : Num)

/-- After any number of complete frames stands one whose body is `null`. -/
inductive HasNullFrame : Bytes → Prop where
  | here {buffer body rest : Bytes} : FrameAt buffer body rest → parsesToNull body = true →
      HasNullFrame buffer
  | later {buffer body rest : Bytes} : FrameAt buffer body rest → HasNullFrame rest →
      HasNullFrame buffer

variable {f : Framing} {buffer body rest : Bytes} {closed : Bool}

theorem dataTurn_of_frameAt (h : FrameAt buffer body rest) :
    dataTurn ⟨noLength, closed⟩ buffer = .go ⟨noLength, closed⟩ body rest := by
  obtain ⟨header, ds, hsplit, hgroup, hlen⟩ := h
  rw [dataTurn_of_header noLength_lt hsplit hgroup, hlen, bodyTurn, if_neg (by simp),
    count_natCast, List.take_left, List.drop_left]

theorem frameAt_of_dataTurn (h : dataTurn ⟨noLength, closed⟩ buffer = .go f body rest) :
    f = ⟨noLength, closed⟩ ∧ FrameAt buffer body rest := by
  cases hsplit : splitFirst crlf buffer with
  | none =>
    rw [dataTurn_of_none noLength_lt hsplit] at h
    cases h
  | some p =>
    obtain ⟨header, tail⟩ := p
    cases hgroup : lengthGroup (toAscii header) with
    | none =>
      rw [dataTurn_of_malformed noLength_lt hsplit hgroup] at h
      cases h
    | some ds =>
      rw [dataTurn_of_header noLength_lt hsplit hgroup, bodyTurn] at h
      split_ifs at h with hwait
      obtain ⟨rfl, rfl, rfl⟩ := Turn.go.inj h
      refine ⟨rfl, header, ds, by rw [List.take_append_drop, hsplit], hgroup, ?_⟩
      rcases Num.ofRat_natCast_cases (Nat.ofDigitChars 10 ds 0) with hinf | ⟨m, hm⟩
      · exact absurd (by rw [Num.ofDigits, hinf]; rfl) hwait
      · rw [Num.ofDigits, hm] at hwait ⊢
        rw [Num.natCast_lt, not_lt] at hwait
        rw [count_natCast, List.length_take, Nat.min_eq_left hwait]

theorem hasNullFrame_iff (buffer : Bytes) (closed : Bool) :
    HasNullFrame buffer ↔
      ∃ out ∈ (dataDecoder.drain ⟨noLength, closed⟩ buffer).out, parsesToNull out = true := by
  cases h : dataTurn ⟨noLength, closed⟩ buffer with
  | wait f rest =>
    have hturn : dataDecoder.turn ⟨noLength, closed⟩ buffer = .wait f rest := h
    rw [StreamDecoder.drain_of_wait hturn]
    constructor
    · rintro (⟨hframe, -⟩ | ⟨hframe, -⟩) <;>
        exact nomatch h.symm.trans (dataTurn_of_frameAt hframe)
    · simp
  | go f body rest =>
    have hturn : dataDecoder.turn ⟨noLength, closed⟩ buffer = .go f body rest := h
    rw [StreamDecoder.drain_of_go hturn]
    obtain ⟨rfl, hframe⟩ := frameAt_of_dataTurn h
    have hlt : rest.length < buffer.length := (dataTurn_go h).2.2.1 noLength_lt
    have ih := hasNullFrame_iff rest closed
    simp only [List.mem_cons, exists_eq_or_imp, ← ih]
    constructor
    · rintro (⟨hother, hnull⟩ | ⟨hother, hrest⟩)
      · obtain ⟨-, rfl, -⟩ := Turn.go.inj (h.symm.trans (dataTurn_of_frameAt hother))
        exact .inl hnull
      · obtain ⟨-, -, rfl⟩ := Turn.go.inj (h.symm.trans (dataTurn_of_frameAt hother))
        exact .inr hrest
    · rintro (hnull | hrest)
      · exact .here hframe hnull
      · exact .later hframe hrest
termination_by buffer.length

/-! ## Chunks -/

theorem init_eq_drain : Framing.init = dataDecoder.drain ⟨noLength, false⟩ [] :=
  (drain_frames (List.forall_mem_nil _) false).symm

/-- Cutting the bytes into chunks makes no difference and no call throws, exactly when none of the
frames has the body `null`. -/
theorem chunking_free_iff (bytes : Bytes) :
    (∀ chunks chunks' : List Bytes, chunks.flatten = bytes → chunks'.flatten = bytes →
        (chunks.foldl receive newReceiver).2 = false ∧
          chunks.foldl receive newReceiver = chunks'.foldl receive newReceiver) ↔
      ¬ HasNullFrame bytes := by
  rw [hasNullFrame_iff bytes false]
  constructor
  · rintro h hnull
    have hsafe := (h [bytes] [bytes] (by simp) (by simp)).1
    have hthrow : (dataDecoder.drainUntil dispatchThrows ⟨noLength, false⟩ bytes).2 = true :=
      (StreamDecoder.drainUntil_breaks _ _).mpr hnull
    rw [List.foldl_cons, List.foldl_nil, receive, StreamDecoder.feedUntil] at hsafe
    simp only [newReceiver, Framing.init, List.nil_append, Bool.false_or] at hsafe
    rw [hthrow] at hsafe
    cases hsafe
  · intro h chunks chunks' hchunks hchunks'
    have hall {cs : List Bytes} (hcs : cs.flatten = bytes) :
        cs.foldl receive newReceiver = (dataDecoder.drain ⟨noLength, false⟩ bytes, false) := by
      have hout : ∀ out ∈ (dataDecoder.drain ⟨noLength, false⟩ ([] ++ cs.flatten)).out,
          dispatchThrows out = false := by
        rw [List.nil_append, hcs]
        intro out hmem
        by_contra hnull
        exact h ⟨out, hmem, Bool.not_eq_false _ ▸ hnull⟩
      have hfeed : cs.foldl receive (dataDecoder.drain ⟨noLength, false⟩ [], false) =
          (dataDecoder.drain ⟨noLength, false⟩ ([] ++ cs.flatten), false) :=
        StreamDecoder.foldl_feedUntil _ _ _ hout
      rwa [List.nil_append, hcs, ← init_eq_drain] at hfeed
    rw [hall hchunks, hall hchunks']
    exact ⟨rfl, rfl⟩

def nullBody : Bytes := Utf8.ascii "null".toList

/-- A single frame with the body `null` makes `onData` throw. -/
theorem null_frame_throws :
    ¬ ∀ chunks chunks' : List Bytes, chunks.flatten = frame nullBody →
      chunks'.flatten = frame nullBody →
        (chunks.foldl receive newReceiver).2 = false ∧
          chunks.foldl receive newReceiver = chunks'.foldl receive newReceiver := by
  intro h
  have hsafe := (h [frame nullBody] [frame nullBody] (by simp) (by simp)).1
  have hshort : nullBody.length < 2 ^ 53 := by decide
  have hturn : dataDecoder.turn ⟨noLength, false⟩ (frame nullBody ++ []) =
      .go ⟨noLength, false⟩ nullBody [] := dataTurn_frame hshort false []
  have hnull : dispatchThrows nullBody = true := by decide +kernel
  rw [List.append_nil] at hturn
  rw [List.foldl_cons, List.foldl_nil, receive, StreamDecoder.feedUntil] at hsafe
  simp only [newReceiver, Framing.init, List.nil_append, Bool.false_or] at hsafe
  rw [StreamDecoder.drainUntil_of_go hturn, hnull] at hsafe
  cases hsafe

end ValyriaApp.Rpc
