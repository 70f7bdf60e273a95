import ValyriaApp.Host.Requests
import ValyriaApp.Lib.Machine
import ValyriaApp.Protocol.Ordered
import ValyriaApp.Rpc.Client

/-! # The extension and its host

The client of the extension and the host write frames into two pipes. The host
reads one request at a time and answers it before it reads the next; reports of
its tasks come in between, and the bytes arrive in chunks of any size. Whatever
the interleaving, a promise is settled by what the host answered to the very
request the promise was made for.
-/

namespace ValyriaApp.Rpc

def Outgoing.isResponse : Outgoing → Bool
  | .ok _ _ | .err _ _ => true
  | .notification _ _ => false

/-- What the host reads a request as; its maps hold the properties in the order of the keys. -/
def Request.read (q : Request) : Incoming :=
  { q.incoming with params := q.incoming.params.inOrder }

/-- The serialiser of the client and the parser of the host agree on the request. -/
structure Serde.Delivers (S : Serde) (q : Request) : Prop where
  fromSlice_stringify : S.fromSlice (S.stringify q.json) = .ok q.read
  length_lt : (S.stringify q.json).length < 2 ^ 53

/-- The message a promise was settled with. -/
def Outcome.msg? : Outcome → Option Json
  | .resolved msg _ | .rejected msg _ => some msg
  | .closed _ | .notRunning _ => none

theorem answer_msg? (msg : Json) : (answer msg).msg? = some msg := by
  rw [answer]
  split <;> rfl

end ValyriaApp.Rpc

namespace ValyriaApp.BridgeHost

open Lib Rpc Dispatch

/-- A request the host has handled, with the session it had open and what it met outside. -/
structure Served where
  world : World
  live : Option Dispatch.Live
  req : Incoming

def Served.handled (s : Served) : Handled := handle s.world s.live s.req

/-- The two processes and the pipes between them. -/
structure Channel where
  client : Client
  /-- The framing of the client. -/
  fed : Fed Framing UInt8 Bytes
  /-- The bytes in the pipe to the host. -/
  stdin : Bytes
  /-- The bytes in the pipe to the client. -/
  stdout : Bytes
  live : Option Dispatch.Live
  exited : Bool
  /-- What the host has handled, and what it has written, so far. -/
  served : List Served
  out : List Outgoing

inductive ChannelAction where
  | request (method : String) (params : Option Json)
  | on (method : String) (handler : ℕ)
  | off (set handler : ℕ)
  | dispose
  /-- The host reads the pipe, which comes in the given chunks. -/
  | serve (world : World) (chunks : List Bytes)
  /-- A supervise task reports something. -/
  | notify (method : String) (params : Json)
  /-- A supervise task swaps the session or moves the cursor. -/
  | supervise (live : Dispatch.Live)
  /-- The first `n` bytes of the pipe reach the client. -/
  | arrive (n : ℕ)

namespace Channel

def start : Channel where
  client := .new
  fed := Framing.init
  stdin := []
  stdout := []
  live := none
  exited := false
  served := []
  out := []

variable (S : Serde)

/-- The single writer of the host. -/
def write (c : Channel) (messages : List Outgoing) : Channel :=
  { c with
    stdout := c.stdout ++ (messages.map S.writeFrame).flatten
    out := c.out ++ messages }

/-- `request` and its `write`; a closed client writes nothing. -/
def request (c : Channel) (method : String) (params : Option Json) : Channel :=
  { c with
    client := c.client.request method params
    stdin := c.stdin ++ if c.client.closed then [] else S.write ⟨c.client.nextId, method, params⟩ }

/-- One turn of the main loop, with what `read_frame` brought. -/
def serve (c : Channel) (world : World) : Except IoError (Option Incoming) × List Bytes → Channel
  | (.ok (some req), rest) =>
    let s : Served := ⟨world, c.live, req⟩
    { c with live := s.handled.live, stdin := rest.flatten, served := c.served ++ [s] }.write S
      s.handled.sent
  | (.ok none, rest) | (.error _, rest) => { c with stdin := rest.flatten, exited := true }

/-- `onData`: what it emits is dispatched in order, and a malformed header closes the client. -/
def arrive (c : Channel) (chunk : Bytes) : Channel :=
  let fed := onData c.fed chunk
  let client := ((fed.out.drop c.fed.out.length).map S.parse).foldl
    (fun client body => client.apply (.frame body)) c.client
  { c with
    client := if fed.state.closed then client.onClose "malformed frame header" else client
    fed }

def step (c : Channel) : ChannelAction → Option Channel
  | .request method params => some (c.request S method params)
  | .on method handler => some { c with client := c.client.on method handler }
  | .off set handler => some { c with client := c.client.off set handler }
  | .dispose => some { c with client := c.client.onClose "client disposed" }
  | .serve world chunks =>
    if c.exited = false ∧ chunks.flatten = c.stdin ∧ c.stdin ≠ [] then
      some (c.serve S world (S.readFrame chunks))
    else none
  | .notify method params =>
    if c.exited = false then some (c.write S [.notification method params]) else none
  | .supervise live =>
    if c.exited = false ∧ c.live.isSome then some { c with live := some live } else none
  | .arrive n =>
    some ({ c with stdout := c.stdout.drop n }.arrive S (c.stdout.take n))

/-- The JSON libraries of the two sides agree on every message that is written. -/
def Carried (c : Channel) : ChannelAction → Prop
  | .request method params => S.Delivers ⟨c.client.nextId, method, params⟩
  | .serve world chunks => ∀ req rest, S.readFrame chunks = (.ok (some req), rest) →
      ∀ m ∈ (Served.handled ⟨world, c.live, req⟩).sent, S.Carries m
  | .notify method params => S.Carries (.notification method params)
  | _ => True

end Channel

/-! ## The pipe to the client -/

section Pipe

variable {S : Serde} {out : List Outgoing} {bytes rest : Bytes}

theorem closed_of_dataTurn {f f' : Framing} {buffer left : Bytes}
    (h : dataTurn f buffer = .wait f' left ∨ ∃ body, dataTurn f buffer = .go f' body left)
    (hclosed : f.closed = true) : f'.closed = true := by
  have hbody : ∀ g buffer, g.closed = true →
      (bodyTurn g buffer = .wait f' left ∨ ∃ body, bodyTurn g buffer = .go f' body left) →
      f'.closed = true := by
    intro g buffer hg hturn
    rcases hturn with hturn | ⟨body, hturn⟩
    · obtain ⟨rfl, -⟩ := bodyTurn_wait hturn
      exact hg
    · obtain ⟨rfl, -⟩ := bodyTurn_go hturn
      exact hg
  by_cases hlen : f.contentLength < 0
  · cases hsplit : splitFirst crlf buffer with
    | none =>
      rw [dataTurn_of_none hlen hsplit] at h
      rcases h with h | ⟨body, h⟩
      · cases h
        exact hclosed
      · cases h
    | some p =>
      obtain ⟨header, tail⟩ := p
      cases hgroup : lengthGroup (toAscii header) with
      | none =>
        rw [dataTurn_of_malformed hlen hsplit hgroup] at h
        rcases h with h | ⟨body, h⟩
        · cases h
          rfl
        · cases h
      | some ds =>
        rw [dataTurn_of_header hlen hsplit hgroup] at h
        exact hbody { f with contentLength := Num.ofDigits ds } tail hclosed h
  · rw [dataTurn_of_body hlen] at h
    exact hbody _ _ hclosed h

/-- What has arrived of the frames is decoded to what was written first, and no header is
malformed. -/
theorem drain_arrived (hcarries : ∀ m ∈ out, S.Carries m)
    (h : bytes ++ rest = (out.map S.writeFrame).flatten) :
    (dataDecoder.drain ⟨noLength, false⟩ bytes).state.closed = false ∧
      (dataDecoder.drain ⟨noLength, false⟩ bytes).out <+: out.map (fun m => S.toVec m.json) ∧
      (rest = [] → (dataDecoder.drain ⟨noLength, false⟩ bytes).out =
        out.map fun m => S.toVec m.json) := by
  have hbodies : ∀ body ∈ out.map (fun m => S.toVec m.json), body.length < 2 ^ 53 := by
    intro body hbody
    obtain ⟨m, hm, rfl⟩ := List.mem_map.mp hbody
    exact (hcarries m hm).length_lt
  have hframes : out.map S.writeFrame = (out.map fun m => S.toVec m.json).map frame := by
    rw [List.map_map]
    rfl
  have hall := drain_frames hbodies false
  rw [← hframes, ← h] at hall
  refine ⟨?_, ?_, ?_⟩
  · by_contra hclosed
    rw [Bool.not_eq_false] at hclosed
    have hkeeps : (dataDecoder.feed (dataDecoder.drain ⟨noLength, false⟩ bytes) rest).state.closed =
        true :=
      StreamDecoder.drain_keeps (P := fun f : Framing => f.closed = true)
        (fun _ _ _ _ hturn => closed_of_dataTurn (Or.inl hturn))
        (fun _ _ _ _ _ hturn => closed_of_dataTurn (Or.inr ⟨_, hturn⟩)) _ _ hclosed
    have hfeed := congrArg (·.state.closed)
      (StreamDecoder.feed_drain (D := dataDecoder) ⟨noLength, false⟩ bytes rest)
    rw [hall] at hfeed
    exact Bool.false_ne_true (hfeed.symm.trans hkeeps)
  · have hprefix := StreamDecoder.out_drain_prefix (D := dataDecoder) ⟨noLength, false⟩ bytes rest
    rwa [hall] at hprefix
  · rintro rfl
    rw [List.append_nil] at hall
    rw [hall]

end Pipe

/-! ## The invariant -/

def Served.answers (s : Served) : List Outgoing := s.handled.sent.filter Outgoing.isResponse

/-- The messages that have reached the client. -/
def Channel.heard (c : Channel) : List Outgoing := c.out.take c.fed.out.length

/-- What stands between the two ends of the pipe to the client. -/
structure Wire (S : Serde) (c : Channel) : Prop where
  carries : ∀ m ∈ c.out, S.Carries m
  arrived : ∃ bytes, bytes ++ c.stdout = (c.out.map S.writeFrame).flatten ∧
    c.fed = dataDecoder.drain ⟨noLength, false⟩ bytes

/-- What a client has made of the messages it heard. -/
structure Heard (client : Client) (heard : List Outgoing) : Prop where
  settled : ∀ x ∈ client.settled, ∀ msg, x.outcome.msg? = some msg →
    x.outcome = answer msg ∧ ∃ m ∈ heard, msg = m.json
  pending : ∀ e ∈ client.pending, ∀ m ∈ heard, m.json.get? "id" ≠ some (.num e.1)
  nodup : (client.pending.map Prod.fst).Nodup

/-- The requests written are those handled and those in the pipe, and the responses written are the
answers to those handled. -/
structure Requests (S : Serde) (c : Channel) : Prop where
  carries : ∀ q ∈ c.client.written, S.Delivers q
  read : c.served.map Served.req = (c.client.written.take c.served.length).map Request.read
  unread : c.stdin = ((c.client.written.drop c.served.length).map S.write).flatten
  answers : c.out.filter Outgoing.isResponse = c.served.flatMap Served.answers

structure ChannelInv (S : Serde) (c : Channel) : Prop where
  client : c.client.Inv
  running : c.exited = false
  wire : Wire S c
  heard : Heard c.client c.heard
  requests : Requests S c

section Answers

variable {S : Serde} {c : Channel} {m : Outgoing} {n : Num}

theorem filter_sent (w : World) (live : Option Dispatch.Live) (req : Incoming) :
    (handle w live req).sent.filter Outgoing.isResponse =
      (req.id.map fun id => respond id
        (ExceptState.exec (dispatch w req.method req.params) ⟨live, [], []⟩).1).toList := by
  have hnone (rs : List (String × Json)) :
      (rs.map fun r => Outgoing.notification r.1 r.2).filter Outgoing.isResponse = [] := by
    rw [List.filter_eq_nil_iff]
    intro m hm
    obtain ⟨r, -, rfl⟩ := List.mem_map.mp hm
    simp [Outgoing.isResponse]
  rw [handle]
  cases req.id with
  | none => rfl
  | some id =>
    have hlast (r : Except RpcError Json) : (respond id r).isResponse = true := by
      cases r <;> rfl
    simp only [List.filter_append, hnone, Option.map_some, Option.toList_some]
    simp [hlast]

theorem id_respond (id : Json) (r : Except RpcError Json) :
    (respond id r).json.get? "id" = some id := by
  cases r <;> simp [respond, Outgoing.json, Json.get?]

theorem isResponse_of_id (h : m.json.get? "id" = some (.num n)) : m.isResponse = true := by
  cases m with
  | notification method params => simp [Outgoing.json, Json.get?] at h
  | _ => rfl

theorem Requests.length_le (h : Requests S c) : c.served.length ≤ c.client.written.length := by
  have hlen := congrArg List.length h.read
  rw [List.length_map, List.length_map, List.length_take] at hlen
  omega

/-- The request handled in a place is the request written in that place. -/
theorem Requests.served_getElem (h : Requests S c) {i : ℕ} {s : Served}
    (hs : c.served[i]? = some s) : ∃ q, c.client.written[i]? = some q ∧ s.req = q.read := by
  have hread := congrArg (·[i]?) h.read
  have hlt : i < c.served.length := (List.getElem?_eq_some_iff.mp hs).1
  simp only [List.getElem?_map, hs, List.getElem?_take, if_pos hlt, Option.map_some] at hread
  obtain ⟨q, hq, hreq⟩ := Option.map_eq_some_iff.mp hread.symm
  exact ⟨q, hq, hreq.symm⟩

theorem answers_of_req {s : Served} {q : Request} (h : s.req = q.read) :
    s.answers = [respond (.num q.id)
      (ExceptState.exec (dispatch s.world s.req.method s.req.params) ⟨s.live, [], []⟩).1] := by
  rw [Served.answers, Served.handled, filter_sent, h]
  rfl

theorem Requests.own (h : Requests S c) (hm : m ∈ c.out)
    (hid : m.json.get? "id" = some (.num n)) :
    ∃ (i : ℕ) (s : Served) (q : Request), c.served[i]? = some s ∧
      c.client.written[i]? = some q ∧ s.answers = [m] ∧ (q.id : Num) = n := by
  have hresponse : m ∈ c.served.flatMap Served.answers := by
    rw [← h.answers]
    exact List.mem_filter.mpr ⟨hm, isResponse_of_id hid⟩
  obtain ⟨s, hs, hmem⟩ := List.mem_flatMap.mp hresponse
  obtain ⟨i, hi⟩ := List.mem_iff_getElem?.mp hs
  obtain ⟨q, hq, hreq⟩ := h.served_getElem hi
  have hanswers := answers_of_req hreq
  rw [hanswers, List.mem_singleton] at hmem
  subst hmem
  refine ⟨i, s, q, hi, hq, hanswers, ?_⟩
  rw [id_respond] at hid
  exact Json.num.inj (Option.some.inj hid)

end Answers

/-! ## What a message does to the client -/

section Hearing

variable {client client' : Client} {heard : List Outgoing} {m : Outgoing} {n : Num}

theorem dispatch_of_id (h : m.json.get? "id" = some (.num n)) :
    client.dispatch m.json = client.settle n m.json := by
  have hresult : (m.json.get? "result").isSome || (m.json.get? "error").isSome := by
    cases m with
    | notification method params => simp [Outgoing.json, Json.get?] at h
    | ok id result => simp [Outgoing.json, Json.get?]
    | err id error => simp [Outgoing.json, Json.get?]
  rw [Client.dispatch, h]
  simp only [hresult, if_true]

/-- What `notify` leaves alone. -/
structure SamePromises (client client' : Client) : Prop where
  pending : client'.pending = client.pending
  settled : client'.settled = client.settled
  written : client'.written = client.written
  nextId : client'.nextId = client.nextId
  closed : client'.closed = client.closed

theorem SamePromises.refl (client : Client) : SamePromises client client :=
  ⟨rfl, rfl, rfl, rfl, rfl⟩

theorem samePromises_notify (client : Client) (method : String) (params : Option Json) :
    SamePromises client (client.notify method params) := by
  rw [Client.notify]
  split
  · exact .refl client
  · exact ⟨rfl, rfl, rfl, rfl, rfl⟩

theorem samePromises_dispatch (h : ∀ n, m.json.get? "id" ≠ some (.num n)) :
    SamePromises client (client.dispatch m.json) := by
  obtain heq | ⟨n, hid, -⟩ | ⟨method, params, heq⟩ := Client.dispatch_cases client m.json
  · rw [heq]
    exact .refl client
  · exact absurd hid (h n)
  · rw [heq]
    exact samePromises_notify client method params

theorem Heard.of_same (h : Heard client heard) (hsame : SamePromises client client') :
    Heard client' heard :=
  ⟨hsame.settled ▸ h.settled, hsame.pending ▸ h.pending, hsame.pending ▸ h.nodup⟩

theorem Heard.more (h : Heard client heard) (hm : ∀ e ∈ client.pending,
    m.json.get? "id" ≠ some (.num e.1)) : Heard client (heard ++ [m]) := by
  refine ⟨fun x hx msg hmsg => ?_, fun e he m' hm' => ?_, h.nodup⟩
  · obtain ⟨houtcome, m', hm', hjson⟩ := h.settled x hx msg hmsg
    exact ⟨houtcome, m', List.mem_append_left _ hm', hjson⟩
  · rcases List.mem_append.mp hm' with hm' | hm'
    · exact h.pending e he m' hm'
    · obtain rfl := List.mem_singleton.mp hm'
      exact hm e he

theorem Heard.settle (h : Heard client heard) (hid : m.json.get? "id" = some (.num n)) :
    Heard (client.settle n m.json) (heard ++ [m]) := by
  rw [Client.settle]
  split
  · next hnone =>
    apply h.more
    intro e he heq
    rw [hid] at heq
    obtain rfl : n = e.1 := Json.num.inj (Option.some.inj heq)
    simpa using List.find?_eq_none.mp hnone e he
  · next e hfind =>
    obtain ⟨es₁, es₂, hpending, herase⟩ := Client.eraseP_of_find hfind
    have hmatch : (e.1 : Num) = n := by simpa using List.find?_some hfind
    have hnodup := h.nodup
    rw [hpending] at hnodup
    have hne : ∀ d ∈ es₁ ++ es₂, d.1 ≠ e.1 := by
      intro d hd heq
      simp only [List.map_append, List.map_cons, List.nodup_append, List.nodup_cons,
        List.mem_map, List.mem_cons] at hnodup
      rcases List.mem_append.mp hd with hd | hd
      · exact hnodup.2.2 d.1 ⟨d, hd, rfl⟩ e.1 (Or.inl rfl) heq
      · exact hnodup.2.1.1 ⟨d, hd, heq⟩
    have hsub : (es₁ ++ es₂).Sublist client.pending := by
      rw [hpending]
      exact (List.sublist_cons_self e es₂).append_left es₁
    have hrest : ∀ d ∈ es₁ ++ es₂, ∀ m' ∈ heard ++ [m], m'.json.get? "id" ≠ some (.num d.1) := by
      intro d hd m' hm'
      rcases List.mem_append.mp hm' with hm' | hm'
      · exact h.pending d (hsub.subset hd) m' hm'
      · obtain rfl := List.mem_singleton.mp hm'
        intro heq
        rw [hid, ← hmatch] at heq
        exact hne d hd (Num.natCast_inj.mp (Json.num.inj (Option.some.inj heq))).symm
    refine ⟨fun x hx msg hmsg => ?_, ?_, ?_⟩
    · rcases List.mem_append.mp hx with hx | hx
      · obtain ⟨houtcome, m', hm', hjson⟩ := h.settled x hx msg hmsg
        exact ⟨houtcome, m', List.mem_append_left _ hm', hjson⟩
      · obtain rfl := List.mem_singleton.mp hx
        rw [answer_msg?] at hmsg
        cases hmsg
        exact ⟨rfl, m, by simp, rfl⟩
    · rw [herase]
      exact hrest
    · rw [herase]
      exact h.nodup.sublist (hsub.map _)

theorem Heard.dispatch (h : Heard client heard) (m : Outgoing) :
    Heard (client.dispatch m.json) (heard ++ [m]) := by
  by_cases hid : ∃ n, m.json.get? "id" = some (.num n)
  · obtain ⟨n, hid⟩ := hid
    rw [dispatch_of_id hid]
    exact h.settle hid
  · rw [not_exists] at hid
    exact (h.more fun e _ => hid e.1).of_same (samePromises_dispatch hid)

theorem written_dispatch (client : Client) (m : Outgoing) :
    (client.dispatch m.json).written = client.written ∧
      (client.dispatch m.json).closed = client.closed := by
  by_cases hid : ∃ n, m.json.get? "id" = some (.num n)
  · obtain ⟨n, hid⟩ := hid
    rw [dispatch_of_id hid, Client.settle]
    split
    · exact ⟨rfl, rfl⟩
    · exact ⟨rfl, rfl⟩
  · rw [not_exists] at hid
    have hsame : SamePromises client (client.dispatch m.json) := samePromises_dispatch hid
    exact ⟨hsame.written, hsame.closed⟩

/-- The messages are dispatched in the order they were written. -/
def hear (client : Client) (ms : List Outgoing) : Client :=
  ms.foldl (fun client m => client.dispatch m.json) client

theorem Heard.hear (h : Heard client heard) (ms : List Outgoing) :
    Heard (hear client ms) (heard ++ ms) := by
  induction ms generalizing client heard with
  | nil =>
    rw [List.append_nil]
    exact h
  | cons m ms ih =>
    have hnext := ih (h.dispatch m)
    rwa [List.append_assoc, List.singleton_append] at hnext

theorem written_hear (client : Client) (ms : List Outgoing) :
    (hear client ms).written = client.written ∧ (hear client ms).closed = client.closed := by
  induction ms generalizing client with
  | nil => exact ⟨rfl, rfl⟩
  | cons m ms ih =>
    obtain ⟨hwritten, hclosed⟩ := ih (client.dispatch m.json)
    obtain ⟨hwritten', hclosed'⟩ := written_dispatch client m
    exact ⟨hwritten.trans hwritten', hclosed.trans hclosed'⟩

theorem inv_hear (h : client.Inv) (ms : List Outgoing) : (hear client ms).Inv := by
  induction ms generalizing client with
  | nil => exact h
  | cons m ms ih => exact ih (h.dispatch m.json)

end Hearing

/-! ## One step -/

section Steps

variable {S : Serde} {c d : Channel} {messages : List Outgoing}

theorem Wire.out_eq (h : Wire S c) : c.fed.state.closed = false ∧
    c.fed.out = c.heard.map (fun m => S.toVec m.json) ∧
    (c.stdout = [] → c.heard = c.out) := by
  obtain ⟨bytes, hbytes, hfed⟩ := h.arrived
  obtain ⟨hclosed, hprefix, hall⟩ := drain_arrived h.carries hbytes
  rw [← hfed] at hclosed hprefix hall
  refine ⟨hclosed, ?_, fun hempty => ?_⟩
  · rw [Channel.heard, List.map_take]
    exact List.prefix_iff_eq_take.mp hprefix
  · rw [Channel.heard, hall hempty, List.length_map, List.take_length]

theorem Wire.length_le (h : Wire S c) : c.fed.out.length ≤ c.out.length := by
  have hlen := congrArg List.length h.out_eq.2.1
  rw [List.length_map, Channel.heard, List.length_take] at hlen
  omega

theorem Wire.write (h : Wire S c) (hm : ∀ m ∈ messages, S.Carries m) :
    Wire S (c.write S messages) := by
  refine ⟨List.forall_mem_append.mpr ⟨h.carries, hm⟩, ?_⟩
  obtain ⟨bytes, hbytes, hfed⟩ := h.arrived
  refine ⟨bytes, ?_, hfed⟩
  change bytes ++ (c.stdout ++ (messages.map S.writeFrame).flatten) = _
  rw [← List.append_assoc, hbytes, ← List.flatten_append, ← List.map_append]
  rfl

theorem Wire.heard_write (h : Wire S c) (messages : List Outgoing) :
    (c.write S messages).heard = c.heard :=
  List.take_append_of_le_length h.length_le

/-- Bodies that parse are dispatched message by message. -/
theorem foldl_bodies (client : Client) (ms : List Outgoing) (h : ∀ m ∈ ms, S.Carries m) :
    ((ms.map fun m => S.toVec m.json).map S.parse).foldl
      (fun client body => client.apply (.frame body)) client = hear client ms := by
  induction ms generalizing client with
  | nil => rfl
  | cons m ms ih =>
    obtain ⟨hm, hms⟩ := List.forall_mem_cons.mp h
    simp only [List.map_cons, List.foldl_cons, hm.parse_toVec]
    exact ih (client.dispatch m.json) hms

/-- The bytes that arrive complete some of the messages written. -/
theorem Wire.arrive (h : Wire S c) (n : ℕ) {d : Channel}
    (hd : d = ({ c with stdout := c.stdout.drop n } : Channel).arrive S (c.stdout.take n)) :
    Wire S d ∧ ∃ ms, d.heard = c.heard ++ ms ∧ d.client = hear c.client ms := by
  obtain ⟨bytes, hbytes, hfed⟩ := h.arrived
  have hnext : onData c.fed (c.stdout.take n) =
      dataDecoder.drain ⟨noLength, false⟩ (bytes ++ c.stdout.take n) := by
    rw [hfed]
    exact StreamDecoder.feed_drain _ bytes (c.stdout.take n)
  have hwire : Wire S d := by
    refine ⟨hd ▸ h.carries, bytes ++ c.stdout.take n, ?_, hd ▸ hnext⟩
    rw [hd]
    change bytes ++ c.stdout.take n ++ c.stdout.drop n = (c.out.map S.writeFrame).flatten
    rw [List.append_assoc, List.take_append_drop, hbytes]
  have hfed' : d.fed = onData c.fed (c.stdout.take n) := by rw [hd]; rfl
  have hout' : d.out = c.out := by rw [hd]; rfl
  -- what had arrived is still there, so that the new bodies are those of the messages after it
  have hlen : c.fed.out.length ≤ d.fed.out.length := by
    rw [hfed']
    change c.fed.out.length ≤ (c.fed.out ++ _).length
    rw [List.length_append]
    exact Nat.le_add_right _ _
  have hsplit : d.heard = c.heard ++ d.heard.drop c.fed.out.length := by
    rw [Channel.heard, hout', Channel.heard]
    conv_lhs => rw [← List.take_append_drop c.fed.out.length (c.out.take d.fed.out.length)]
    rw [List.take_take, Nat.min_eq_left hlen]
  refine ⟨hwire, d.heard.drop c.fed.out.length, hsplit, ?_⟩
  have hbodies : d.fed.out.drop c.fed.out.length =
      (d.heard.drop c.fed.out.length).map fun m => S.toVec m.json := by
    rw [hwire.out_eq.2.1, List.map_drop]
  have hcarries : ∀ m ∈ d.heard.drop c.fed.out.length, S.Carries m := by
    intro m hm
    exact hwire.carries m (List.mem_of_mem_take (List.mem_of_mem_drop hm))
  rw [← foldl_bodies c.client _ hcarries, ← hbodies]
  have hopen := hwire.out_eq.1
  rw [hfed'] at hopen ⊢
  rw [hd]
  exact if_neg (by rw [hopen]; exact Bool.false_ne_true)

theorem write_ne_nil (q : Request) : S.write q ≠ [] := by
  simp [Serde.write, crlf]

theorem id_lt_nextId (h : c.client.Inv) {q : Request} (hq : q ∈ c.client.written) :
    q.id < c.client.nextId := by
  apply h.fresh
  rw [← h.written]
  exact List.mem_map_of_mem hq

theorem ChannelInv.start : ChannelInv S .start where
  client := Client.inv_new
  running := rfl
  wire := ⟨List.forall_mem_nil _, [], rfl, (drain_frames (List.forall_mem_nil _) false).symm⟩
  heard := ⟨List.forall_mem_nil _, List.forall_mem_nil _, List.nodup_nil⟩
  requests := ⟨List.forall_mem_nil _, rfl, rfl, rfl⟩

theorem Heard.request (h : ChannelInv S c) (method : String) (params : Option Json) :
    Heard (c.client.request method params) c.heard := by
  rw [Client.request]
  split_ifs with hclosed
  · refine ⟨fun x hx msg hmsg => ?_, h.heard.pending, h.heard.nodup⟩
    rcases List.mem_append.mp hx with hx | hx
    · exact h.heard.settled x hx msg hmsg
    · obtain rfl := List.mem_singleton.mp hx
      cases hmsg
  · refine ⟨h.heard.settled, ?_, ?_⟩
    · intro e he m hm hid
      rcases List.mem_append.mp he with he | he
      · exact h.heard.pending e he m hm hid
      · -- the number of the new request is that of none before
        obtain rfl := List.mem_singleton.mp he
        obtain ⟨i, s, q, -, hq, -, heq⟩ := h.requests.own (List.mem_of_mem_take hm) hid
        have hlt := id_lt_nextId h.client (List.mem_of_getElem? hq)
        rw [Num.natCast_inj.mp heq] at hlt
        exact hlt.false
    · simp only [List.map_append, List.map_cons, List.map_nil, List.nodup_append,
        List.nodup_singleton, h.heard.nodup, List.mem_map, List.mem_singleton, true_and]
      rintro _ ⟨e, he, rfl⟩ _ rfl heq
      have hlt := h.client.fresh e.1 (by
        have hget := h.client.sent e he
        exact List.reduceOption_mem_iff.mpr (List.mem_of_getElem? hget))
      rw [heq] at hlt
      exact hlt.false

theorem Requests.request (h : Requests S c) (method : String) (params : Option Json)
    (hcarries : S.Delivers ⟨c.client.nextId, method, params⟩) :
    Requests S (c.request S method params) := by
  cases hclosed : c.client.closed with
  | true =>
    have hrequest : (c.client.request method params).written = c.client.written := by
      rw [Client.request, if_pos hclosed]
    have hstdin : (c.request S method params).stdin = c.stdin := by
      rw [Channel.request, hclosed]
      exact List.append_nil _
    refine ⟨?_, ?_, ?_, h.answers⟩
    · exact hrequest ▸ h.carries
    · exact hrequest ▸ h.read
    · rw [hstdin, h.unread, ← hrequest]
      rfl
  | false =>
    have hrequest : (c.client.request method params).written =
        c.client.written ++ [⟨c.client.nextId, method, params⟩] := by
      rw [Client.request, if_neg (by rw [hclosed]; exact Bool.false_ne_true)]
    have hstdin : (c.request S method params).stdin =
        c.stdin ++ S.write ⟨c.client.nextId, method, params⟩ := by
      rw [Channel.request, hclosed]
      rfl
    refine ⟨?_, ?_, ?_, h.answers⟩
    · change ∀ q ∈ (c.client.request method params).written, S.Delivers q
      rw [hrequest]
      exact List.forall_mem_append.mpr ⟨h.carries, by simpa using hcarries⟩
    · change c.served.map Served.req =
        ((c.client.request method params).written.take c.served.length).map Request.read
      rw [hrequest, List.take_append_of_le_length h.length_le]
      exact h.read
    · rw [hstdin, h.unread]
      change _ = (((c.client.request method params).written.drop c.served.length).map
        S.write).flatten
      rw [hrequest, List.drop_append_of_le_length h.length_le, List.map_append, List.flatten_append]
      simp

theorem ChannelInv.request (h : ChannelInv S c) (method : String) (params : Option Json)
    (hcarries : S.Delivers ⟨c.client.nextId, method, params⟩) :
    ChannelInv S (c.request S method params) where
  client := h.client.request method params
  running := h.running
  wire := ⟨h.wire.carries, h.wire.arrived⟩
  heard := Heard.request h method params
  requests := h.requests.request method params hcarries

theorem Requests.next (h : Requests S c) {chunks : List Bytes} (hchunks : chunks.flatten = c.stdin)
    (hne : c.stdin ≠ []) :
    ∃ q rest, c.client.written[c.served.length]? = some q ∧
      S.readFrame chunks = (.ok (some q.read), rest) ∧
      rest.flatten = ((c.client.written.drop (c.served.length + 1)).map S.write).flatten := by
  have hunread := h.unread
  cases hdrop : c.client.written.drop c.served.length with
  | nil =>
    rw [hdrop] at hunread
    exact absurd hunread hne
  | cons q qs =>
    have hget : c.client.written[c.served.length]? = some q := by
      rw [← List.head?_drop, hdrop, List.head?_cons]
    have htail : qs = c.client.written.drop (c.served.length + 1) := by
      rw [← List.tail_drop, hdrop, List.tail_cons]
    rw [hdrop, List.map_cons, List.flatten_cons] at hunread
    have hq := h.carries q (List.mem_of_getElem? hget)
    obtain ⟨rest, hread, hrest⟩ := readFrame_frame S hq.length_lt hq.fromSlice_stringify
      (hchunks.trans hunread)
    exact ⟨q, rest, hget, hread, htail ▸ hrest⟩

theorem ChannelInv.serve (h : ChannelInv S c) {world : World} {chunks : List Bytes}
    (hchunks : chunks.flatten = c.stdin) (hne : c.stdin ≠ [])
    (hcarries : Channel.Carried S c (.serve world chunks)) :
    ChannelInv S (c.serve S world (S.readFrame chunks)) := by
  obtain ⟨q, rest, hq, hread, hrest⟩ := h.requests.next hchunks hne
  have hsent := hcarries _ _ hread
  rw [hread]
  let s : Served := ⟨world, c.live, q.read⟩
  let d : Channel :=
    { c with live := s.handled.live, stdin := rest.flatten, served := c.served ++ [s] }
  have hwire : Wire S d := ⟨h.wire.carries, h.wire.arrived⟩
  change ChannelInv S (d.write S s.handled.sent)
  refine ⟨h.client, h.running, hwire.write hsent, ?_, h.requests.carries, ?_, ?_, ?_⟩
  · rw [hwire.heard_write]
    exact h.heard
  · change (c.served ++ [s]).map Served.req =
      (c.client.written.take (c.served ++ [s]).length).map Request.read
    rw [List.length_append, List.length_singleton, List.take_add_one, hq, List.map_append,
      List.map_append, h.requests.read]
    rfl
  · change rest.flatten = ((c.client.written.drop (c.served ++ [s]).length).map S.write).flatten
    rw [List.length_append, List.length_singleton, hrest]
  · change (c.out ++ s.handled.sent).filter Outgoing.isResponse =
      (c.served ++ [s]).flatMap Served.answers
    rw [List.filter_append, h.requests.answers, List.flatMap_append, List.flatMap_singleton]
    rfl

theorem ChannelInv.notify (h : ChannelInv S c) {method : String} {params : Json}
    (hcarries : S.Carries (.notification method params)) :
    ChannelInv S (c.write S [.notification method params]) where
  client := h.client
  running := h.running
  wire := h.wire.write (by simpa using hcarries)
  heard := by
    rw [h.wire.heard_write]
    exact h.heard
  requests := by
    refine ⟨h.requests.carries, h.requests.read, h.requests.unread, ?_⟩
    change (c.out ++ [Outgoing.notification method params]).filter Outgoing.isResponse = _
    rw [List.filter_append, h.requests.answers]
    exact List.append_nil _

theorem ChannelInv.arrive (h : ChannelInv S c) (n : ℕ) :
    ChannelInv S (({ c with stdout := c.stdout.drop n } : Channel).arrive S (c.stdout.take n)) := by
  obtain ⟨hwire, ms, hheard, hclient⟩ := h.wire.arrive n rfl
  have hwritten := (written_hear c.client ms).1
  refine ⟨?_, h.running, hwire, ?_, ?_⟩
  · rw [hclient]
    exact inv_hear h.client ms
  · rw [hheard, hclient]
    exact h.heard.hear ms
  · rw [← hclient] at hwritten
    refine ⟨?_, ?_, ?_, h.requests.answers⟩
    · rw [hwritten]
      exact h.requests.carries
    · rw [hwritten]
      exact h.requests.read
    · rw [hwritten]
      exact h.requests.unread

theorem ChannelInv.of_handlers (h : ChannelInv S c) (sets : List (List ℕ))
    (handlers : List (String × ℕ)) :
    ChannelInv S { c with client := { c.client with sets, handlers } } where
  client := h.client.of_eq rfl rfl rfl rfl rfl rfl
  running := h.running
  wire := ⟨h.wire.carries, h.wire.arrived⟩
  heard := ⟨h.heard.settled, h.heard.pending, h.heard.nodup⟩
  requests := ⟨h.requests.carries, h.requests.read, h.requests.unread, h.requests.answers⟩

theorem ChannelInv.onClose (h : ChannelInv S c) (err : String) :
    ChannelInv S { c with client := c.client.onClose err } := by
  have hinv := h.client.onClose err
  have hheard : Heard (c.client.onClose err) c.heard ∧
      (c.client.onClose err).written = c.client.written := by
    rw [Client.onClose]
    split_ifs
    · exact ⟨h.heard, rfl⟩
    · refine ⟨⟨fun x hx msg hmsg => ?_, List.forall_mem_nil _, List.nodup_nil⟩, rfl⟩
      rcases List.mem_append.mp hx with hx | hx
      · exact h.heard.settled x hx msg hmsg
      · obtain ⟨e, -, rfl⟩ := List.mem_map.mp hx
        cases hmsg
  obtain ⟨hheard, hwritten⟩ := hheard
  refine ⟨hinv, h.running, ⟨h.wire.carries, h.wire.arrived⟩, hheard, ?_, ?_, ?_, h.requests.answers⟩
  · rw [hwritten]
    exact h.requests.carries
  · rw [hwritten]
    exact h.requests.read
  · rw [hwritten]
    exact h.requests.unread

theorem ChannelInv.step :
    Machine.Preserves (Channel.step S) (Channel.Carried S) (ChannelInv S) := by
  intro c a d h hg hstep
  cases a with
  | request method params =>
    cases hstep
    exact h.request method params hg
  | on method handler =>
    cases hstep
    obtain ⟨sets, handlers, heq⟩ := Client.on_cases c.client method handler
    rw [heq]
    exact h.of_handlers sets handlers
  | off set handler =>
    cases hstep
    exact h.of_handlers _ _
  | dispose =>
    cases hstep
    exact h.onClose _
  | serve world chunks =>
    obtain ⟨⟨-, hchunks, hne⟩, hstep⟩ := Option.ite_none_right_eq_some.mp hstep
    cases hstep
    exact h.serve hchunks hne hg
  | notify method params =>
    obtain ⟨-, hstep⟩ := Option.ite_none_right_eq_some.mp hstep
    cases hstep
    exact h.notify hg
  | supervise live =>
    obtain ⟨-, hstep⟩ := Option.ite_none_right_eq_some.mp hstep
    cases hstep
    exact ⟨h.client, h.running, ⟨h.wire.carries, h.wire.arrived⟩, h.heard,
      ⟨h.requests.carries, h.requests.read, h.requests.unread, h.requests.answers⟩⟩
  | arrive n =>
    cases hstep
    exact h.arrive n

end Steps

/-! ## Every promise has its own answer -/

section Promises

variable {S : Serde} {c : Channel} {as : List ChannelAction}

theorem ChannelInv.after (hg : Machine.Guarded (Channel.step S) (Channel.Carried S) .start as)
    (hr : Machine.run (Channel.step S) .start as = some c) : ChannelInv S c :=
  Machine.Preserves.run ChannelInv.step ChannelInv.start hg hr

/-- With both pipes empty, nothing is left that was asked. -/
theorem ChannelInv.pending_eq_nil (h : ChannelInv S c) (hstdin : c.stdin = [])
    (hstdout : c.stdout = []) : c.client.pending = [] := by
  have hread : c.client.written.length ≤ c.served.length := by
    by_contra hlt
    rw [not_le] at hlt
    have hunread := h.requests.unread
    rw [List.drop_eq_getElem_cons hlt, List.map_cons, List.flatten_cons, hstdin] at hunread
    exact write_ne_nil _ (List.append_eq_nil_iff.mp hunread.symm).1
  rw [List.eq_nil_iff_forall_not_mem]
  intro e he
  have hmem : e.1 ∈ c.client.promises.reduceOption :=
    List.reduceOption_mem_iff.mpr (List.mem_of_getElem? (h.client.sent e he))
  rw [← h.client.written] at hmem
  obtain ⟨q, hq, hid⟩ := List.mem_map.mp hmem
  obtain ⟨i, hi⟩ := List.mem_iff_getElem?.mp hq
  have hlt : i < c.served.length := (List.getElem?_eq_some_iff.mp hi).1.trans_le hread
  obtain ⟨q', hq', hreq⟩ := h.requests.served_getElem (List.getElem?_eq_getElem hlt)
  obtain rfl : q = q' := Option.some.inj (hi.symm.trans hq')
  have hanswers := answers_of_req hreq
  have hout : respond (.num q.id) (ExceptState.exec (dispatch c.served[i].world
      c.served[i].req.method c.served[i].req.params) ⟨c.served[i].live, [], []⟩).1 ∈ c.out := by
    have hmem : _ ∈ c.served.flatMap Served.answers :=
      List.mem_flatMap.mpr ⟨_, List.getElem_mem hlt, hanswers ▸ List.mem_singleton_self _⟩
    rw [← h.requests.answers] at hmem
    exact List.mem_of_mem_filter hmem
  rw [← h.wire.out_eq.2.2 hstdout] at hout
  exact h.heard.pending e he _ hout (by rw [id_respond, hid])

/-- A promise settled by a message is settled with the answer to the request it was made for. -/
theorem ChannelInv.own_answer (h : ChannelInv S c) {x : Settlement} (hx : x ∈ c.client.settled)
    {msg : Json} (hmsg : x.outcome.msg? = some msg) :
    x.outcome = answer msg ∧ ∃ (i : ℕ) (s : Served) (q : Request) (m : Outgoing),
      c.served[i]? = some s ∧ c.client.written[i]? = some q ∧
      c.client.promises[x.promise]? = some (some q.id) ∧ s.answers = [m] ∧ msg = m.json := by
  obtain ⟨houtcome, m, hm, rfl⟩ := h.heard.settled x hx msg hmsg
  obtain ⟨id, hpromise, hid⟩ : ∃ id : ℕ, c.client.promises[x.promise]? = some (some id) ∧
      m.json.get? "id" = some (.num id) := by
    have hjustified := h.client.justified x hx
    unfold Client.Justified at hjustified
    split at hjustified
    · next heq =>
      rw [heq] at hmsg
      exact Option.some.inj hmsg ▸ hjustified
    · next heq =>
      rw [heq] at hmsg
      exact Option.some.inj hmsg ▸ hjustified
    · next heq => rw [heq] at hmsg; cases hmsg
    · next heq => rw [heq] at hmsg; cases hmsg
  obtain ⟨i, s, q, hs, hq, hanswers, heq⟩ := h.requests.own (List.mem_of_mem_take hm) hid
  obtain rfl := Num.natCast_inj.mp heq
  exact ⟨houtcome, i, s, q, m, hs, hq, hpromise, hanswers, rfl⟩

/-- However requests, reports and chunks interleave, the host handles the requests in the order they
were written and writes one answer to each; a promise is settled with the answer to its own request;
and when both pipes have run empty, every promise is settled, once. -/
theorem settled_by_own_answer
    (hg : Machine.Guarded (Channel.step S) (Channel.Carried S) .start as)
    (hr : Machine.run (Channel.step S) .start as = some c) :
    c.exited = false ∧
    c.served.map Served.req = (c.client.written.take c.served.length).map Request.read ∧
    c.out.filter Outgoing.isResponse = c.served.flatMap Served.answers ∧
    (∀ (i : ℕ) (s : Served), c.served[i]? = some s → ∃ (q : Request) (m : Outgoing),
      c.client.written[i]? = some q ∧ s.answers = [m] ∧ m.json.get? "id" = some (.num q.id)) ∧
    (∀ x ∈ c.client.settled, ∀ msg, x.outcome.msg? = some msg →
      x.outcome = answer msg ∧ ∃ (i : ℕ) (s : Served) (q : Request) (m : Outgoing),
        c.served[i]? = some s ∧ c.client.written[i]? = some q ∧
        c.client.promises[x.promise]? = some (some q.id) ∧ s.answers = [m] ∧ msg = m.json) ∧
    (c.stdin = [] → c.stdout = [] → c.client.pending = [] ∧
      (c.client.settled.map Settlement.promise).Perm (List.range c.client.promises.length)) := by
  have h := ChannelInv.after hg hr
  refine ⟨h.running, h.requests.read, h.requests.answers, ?_, ?_, ?_⟩
  · intro i s hs
    obtain ⟨q, hq, hreq⟩ := h.requests.served_getElem hs
    exact ⟨q, _, hq, answers_of_req hreq, id_respond ..⟩
  · intro x hx msg hmsg
    exact h.own_answer hx hmsg
  · intro hstdin hstdout
    have hpending := h.pending_eq_nil hstdin hstdout
    have hperm := h.client.accounted
    rw [hpending, List.map_nil, List.nil_append] at hperm
    exact ⟨hpending, hperm⟩

def statusRequest : Request := ⟨1, "git/status", none⟩
def statusAnswer : Outgoing := .err (.num 1) noSession
def statusBody : Bytes :=
  Utf8.ascii "\x7b\"jsonrpc\":\"2.0\",\"id\":1,\"method\":\"git/status\"\x7d".toList
def noSessionBody : Bytes :=
  Utf8.ascii ("\x7b\"jsonrpc\":\"2.0\",\"id\":1,\"error\":\x7b\"code\":-32000," ++
    "\"message\":\"no session is open\",\"data\":\"bridge.no_session\"\x7d\x7d").toList

/-- JSON as far as these two messages go. -/
def statusSerde : Serde where
  toVec _ := noSessionBody
  fromSlice bs := if bs = statusBody then .ok statusRequest.read else .error "expected value"
  stringify _ := statusBody
  parse bs := if bs = noSessionBody then some statusAnswer.json else none

/-- The request is read in two chunks, and so is the answer. -/
def statusRun : List ChannelAction :=
  let request := statusSerde.write statusRequest
  [.request "git/status" none, .serve silentWorld [request.take 7, request.drop 7], .arrive 20,
    .arrive 200]

theorem statusRun_carried :
    Machine.Guarded (Channel.step statusSerde) (Channel.Carried statusSerde) .start statusRun := by
  refine .cons ?_ rfl (.cons ?_ rfl (.cons trivial rfl (.cons trivial rfl trivial)))
  · exact ⟨rfl, by decide⟩
  · intro req rest hread m hm
    have hrequest : ([(statusSerde.write statusRequest).take 7,
        (statusSerde.write statusRequest).drop 7] : List Bytes).flatten =
          frame statusBody ++ [] := by
      simp [Serde.write, frame, statusSerde]
    have hbody : statusSerde.fromSlice statusBody = .ok statusRequest.read := rfl
    obtain ⟨r, hread', -⟩ := readFrame_frame statusSerde (by decide) hbody hrequest
    rw [hread'] at hread
    cases hread
    obtain rfl : m = statusAnswer := List.mem_singleton.mp hm
    exact ⟨rfl, by decide⟩

def statusReached : Channel := (Machine.run (Channel.step statusSerde) .start statusRun).get rfl

theorem settled_by_own_answer_status :
    statusReached.exited = false ∧ statusReached.client.pending = [] ∧
    (statusReached.client.settled.map Settlement.promise).Perm
      (List.range statusReached.client.promises.length) ∧
    (∀ (i : ℕ) (s : Served), statusReached.served[i]? = some s → ∃ (q : Request) (m : Outgoing),
      statusReached.client.written[i]? = some q ∧ s.answers = [m] ∧
        m.json.get? "id" = some (.num q.id)) ∧
    ∀ x ∈ statusReached.client.settled, ∀ msg, x.outcome.msg? = some msg →
      x.outcome = answer msg ∧ ∃ s ∈ statusReached.served, ∃ m, s.answers = [m] ∧ msg = m.json := by
  obtain ⟨hexited, -, -, hone, hown, hdone⟩ :=
    settled_by_own_answer statusRun_carried (Option.some_get _).symm (c := statusReached)
  obtain ⟨hpending, hperm⟩ := hdone (by decide +kernel) (by decide +kernel)
  refine ⟨hexited, hpending, hperm, hone, fun x hx msg hmsg => ?_⟩
  obtain ⟨houtcome, i, s, q, m, hs, -, -, hanswers, rfl⟩ := hown x hx msg hmsg
  exact ⟨houtcome, s, List.mem_of_getElem? hs, m, hanswers, rfl⟩

end Promises

end ValyriaApp.BridgeHost
