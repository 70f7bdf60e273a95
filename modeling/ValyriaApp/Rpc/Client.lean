import Mathlib.Data.List.Perm.Basic
import Mathlib.Data.List.ReduceOption
import ValyriaApp.Rpc.Frame

/-! # The JSON-RPC client

A client numbers its requests, keeps the promise of each until a response with
its number arrives, and rejects what is left when the connection closes. The
callbacks of a promise and of a notification are recorded as they are called.
-/

namespace ValyriaApp.Rpc

/-- JavaScript truthiness of a JSON value. -/
def truthy : Json → Bool
  | .null => false
  | .bool b => b
  | .num n => !(decide (n = .nan) || decide (n = 0))
  | .str s => s ≠ ""
  | .arr _ | .obj _ => true

/-- How a promise is settled; a response settles it with the message it came in. -/
inductive Outcome where
  | resolved (msg value : Json)
  | rejected (msg error : Json)
  | closed (err : String)
  | notRunning (method : String)

/-- What a response does to the promise. -/
def answer (msg : Json) : Outcome :=
  match (msg.get? "error").filter truthy with
  | some error => .rejected msg error
  | none => .resolved msg ((msg.get? "result").getD .null)

structure Settlement where
  promise : ℕ
  outcome : Outcome

/-- The client; a promise is its place among the calls of `request`, a set of handlers its place
among the sets made. -/
structure Client where
  nextId : ℕ
  pending : List (ℕ × ℕ)
  sets : List (List ℕ)
  handlers : List (String × ℕ)
  closed : Bool
  /-- The id each call of `request` was sent under. -/
  promises : List (Option ℕ)
  settled : List Settlement
  written : List Request
  delivered : List (ℕ × Option Json)

namespace Client

def new : Client where
  nextId := 1
  pending := []
  sets := []
  handlers := []
  closed := false
  promises := []
  settled := []
  written := []
  delivered := []

def request (s : Client) (method : String) (params : Option Json) : Client :=
  if s.closed then
    { s with
      promises := s.promises ++ [none]
      settled := s.settled ++ [⟨s.promises.length, .notRunning method⟩] }
  else
    { s with
      nextId := s.nextId + 1
      promises := s.promises ++ [some s.nextId]
      pending := s.pending ++ [(s.nextId, s.promises.length)]
      written := s.written ++ [⟨s.nextId, method, params⟩] }

/-- The set of a method, made when there is none. -/
def on (s : Client) (method : String) (handler : ℕ) : Client :=
  match s.handlers.lookup method with
  | some set =>
    { s with sets := s.sets.modify set fun hs => if handler ∈ hs then hs else hs ++ [handler] }
  | none =>
    { s with
      sets := s.sets ++ [[handler]]
      handlers := s.handlers ++ [(method, s.sets.length)] }

/-- The disposer `on` returned. -/
def off (s : Client) (set handler : ℕ) : Client :=
  { s with sets := s.sets.modify set fun hs => hs.erase handler }

/-- `pending.get`. -/
def pendingFor (s : Client) (id : Num) : Option (ℕ × ℕ) := s.pending.find? fun e => (e.1 : Num) = id

/-- The promise a response settles. -/
def settle (s : Client) (id : Num) (msg : Json) : Client :=
  match s.pendingFor id with
  | none => s
  | some e =>
    { s with
      pending := s.pending.eraseP fun e => (e.1 : Num) = id
      settled := s.settled ++ [⟨e.2, answer msg⟩] }

/-- The handlers of a method, in the order of their set. -/
def notify (s : Client) (method : String) (params : Option Json) : Client :=
  match s.handlers.lookup method with
  | none => s
  | some set => { s with delivered := s.delivered ++ (s.sets.getD set []).map (·, params) }

/-- `dispatch` of a body that parsed; on `null` it throws before doing anything. -/
def dispatch (s : Client) (msg : Json) : Client :=
  match msg.get? "id" with
  | some (.num id) =>
    if (msg.get? "result").isSome || (msg.get? "error").isSome then s.settle id msg
    else match msg.get? "method" with
      | some (.str method) => s.notify method (msg.get? "params")
      | _ => s
  | _ => match msg.get? "method" with
    | some (.str method) => s.notify method (msg.get? "params")
    | _ => s

def onClose (s : Client) (err : String) : Client :=
  if s.closed then s
  else
    { s with
      closed := true
      settled := s.settled ++ s.pending.map fun e => ⟨e.2, .closed err⟩
      pending := []
      handlers := [] }

/-- What happens to a client. A body that does not parse is `none`; the stream closing, an error of
the other stream, `dispose` and a malformed header are all a close. -/
inductive Action where
  | request (method : String) (params : Option Json)
  | frame (body : Option Json)
  | close (err : String)
  | on (method : String) (handler : ℕ)
  | off (set handler : ℕ)

def apply (s : Client) : Action → Client
  | .request method params => s.request method params
  | .frame (some msg) => s.dispatch msg
  | .frame none => s
  | .close err => s.onClose err
  | .on method handler => s.on method handler
  | .off set handler => s.off set handler

def after (as : List Action) : Client := as.foldl apply new

/-- A response settles the promise of the request it carries the id of; the others are rejected
because the client closed, before or after they were written. -/
def Justified (s : Client) (x : Settlement) : Prop :=
  match x.outcome with
  | .resolved msg _ | .rejected msg _ =>
    ∃ id : ℕ, s.promises[x.promise]? = some (some id) ∧ msg.get? "id" = some (.num id)
  | .closed _ => s.closed = true ∧ ∃ id, s.promises[x.promise]? = some (some id)
  | .notRunning _ => s.closed = true ∧ s.promises[x.promise]? = some none

/-- What every client keeps. -/
structure Inv (s : Client) : Prop where
  written : s.written.map Request.id = s.promises.reduceOption
  fresh : ∀ id ∈ s.promises.reduceOption, id < s.nextId
  nodup : s.promises.reduceOption.Nodup
  sent : ∀ e ∈ s.pending, s.promises[e.2]? = some (some e.1)
  /-- Each promise is pending or settled, and once. -/
  accounted : (s.pending.map Prod.snd ++ s.settled.map Settlement.promise).Perm
    (List.range s.promises.length)
  justified : ∀ x ∈ s.settled, s.Justified x
  closed : s.closed = true → s.pending = []

variable {s t : Client}

/-- A frame is of no use, settles a promise or goes to the handlers. -/
theorem dispatch_cases (s : Client) (msg : Json) :
    s.dispatch msg = s ∨
      (∃ id, msg.get? "id" = some (.num id) ∧ s.dispatch msg = s.settle id msg) ∨
      ∃ method params, s.dispatch msg = s.notify method params := by
  rw [Client.dispatch]
  split
  · rename_i id hid
    split_ifs
    · exact .inr (.inl ⟨id, hid, rfl⟩)
    · split
      · exact .inr (.inr ⟨_, _, rfl⟩)
      · exact .inl rfl
  · split
    · exact .inr (.inr ⟨_, _, rfl⟩)
    · exact .inl rfl

theorem on_cases (s : Client) (method : String) (handler : ℕ) :
    ∃ sets handlers, s.on method handler = { s with sets, handlers } := by
  rw [Client.on]
  split
  · exact ⟨_, _, rfl⟩
  · exact ⟨_, _, rfl⟩

theorem getElem?_append_some {α : Type*} {xs : List α} {p : ℕ} {y : α} (h : xs[p]? = some y)
    (ys : List α) : (xs ++ ys)[p]? = some y := by
  rw [List.getElem?_append_left (List.getElem?_eq_some_iff.mp h).1, h]

theorem Justified.mono {x : Settlement} (h : s.Justified x)
    (hclosed : s.closed = true → t.closed = true) (hpromises : s.promises <+: t.promises) : t.Justified x := by
  have hget : ∀ y, s.promises[x.promise]? = some y → t.promises[x.promise]? = some y := by
    intro y hy
    obtain ⟨bs, hbs⟩ := hpromises
    exact hbs ▸ getElem?_append_some hy bs
  unfold Justified at *
  split at h
  · obtain ⟨id, hid, hmsg⟩ := h
    exact ⟨id, hget _ hid, hmsg⟩
  · obtain ⟨id, hid, hmsg⟩ := h
    exact ⟨id, hget _ hid, hmsg⟩
  · obtain ⟨hs, id, hid⟩ := h
    exact ⟨hclosed hs, id, hget _ hid⟩
  · exact ⟨hclosed h.1, hget _ h.2⟩

theorem eraseP_of_find {p : ℕ × ℕ → Bool} {es : List (ℕ × ℕ)} {e : ℕ × ℕ}
    (h : es.find? p = some e) :
    ∃ es₁ es₂, es = es₁ ++ e :: es₂ ∧ es.eraseP p = es₁ ++ es₂ := by
  obtain ⟨he, es₁, es₂, rfl, hes⟩ := List.find?_eq_some_iff_append.mp h
  refine ⟨es₁, es₂, rfl, ?_⟩
  rw [List.eraseP_append_right _ (fun b hb => by simpa using hes b hb), List.eraseP_cons_of_pos he]

/-- Only `request`, `dispatch` and `onClose` touch what the invariant is about. -/
theorem Inv.of_eq (h : s.Inv) (hnext : t.nextId = s.nextId) (hpending : t.pending = s.pending)
    (hpromises : t.promises = s.promises) (hsettled : t.settled = s.settled)
    (hwritten : t.written = s.written) (hclosed : t.closed = s.closed) : t.Inv where
  written := by rw [hwritten, hpromises, h.written]
  fresh := by rw [hpromises, hnext]; exact h.fresh
  nodup := by rw [hpromises]; exact h.nodup
  sent := by rw [hpending, hpromises]; exact h.sent
  accounted := by rw [hpending, hsettled, hpromises]; exact h.accounted
  justified := by
    intro x hx
    rw [hsettled] at hx
    exact (h.justified x hx).mono (fun hs => hclosed.trans hs) (hpromises ▸ List.prefix_rfl)
  closed := by rw [hclosed, hpending]; exact h.closed

theorem Inv.refuse (h : s.Inv) (hclosed : s.closed = true) (method : String) :
    Inv { s with
      promises := s.promises ++ [none]
      settled := s.settled ++ [⟨s.promises.length, .notRunning method⟩] } where
  written := by simpa [List.reduceOption_append] using h.written
  fresh := by simpa [List.reduceOption_append] using h.fresh
  nodup := by simpa [List.reduceOption_append] using h.nodup
  sent e he := getElem?_append_some (h.sent e he) _
  accounted := by
    have := h.accounted
    simp only [h.closed hclosed, List.map_nil, List.nil_append, List.map_append, List.map_cons,
      List.length_append, List.length_singleton, List.range_succ] at this ⊢
    exact this.append_right _
  justified := by
    intro x hx
    rcases List.mem_append.mp hx with hx | hx
    · exact (h.justified x hx).mono id (List.prefix_append _ _)
    · obtain rfl := List.mem_singleton.mp hx
      exact ⟨hclosed, by simp⟩
  closed := h.closed

theorem Inv.send (h : s.Inv) (hopen : s.closed ≠ true) (method : String) (params : Option Json) :
    Inv { s with
      nextId := s.nextId + 1
      promises := s.promises ++ [some s.nextId]
      pending := s.pending ++ [(s.nextId, s.promises.length)]
      written := s.written ++ [⟨s.nextId, method, params⟩] } where
  written := by simp [List.reduceOption_append, h.written]
  fresh := by
    intro id hid
    simp only [List.reduceOption_append, List.mem_append] at hid
    rcases hid with hid | hid
    · exact (h.fresh id hid).trans (Nat.lt_succ_self _)
    · obtain rfl : id = s.nextId := by simpa using hid
      exact Nat.lt_succ_self _
  nodup := by
    have hnew : s.nextId ∉ s.promises.reduceOption := fun hmem => (h.fresh _ hmem).false
    simp only [List.reduceOption_append, List.nodup_append, h.nodup, List.reduceOption_singleton,
      Option.toList_some, List.mem_singleton, true_and]
    refine ⟨by simp, ?_⟩
    rintro id hid _ rfl rfl
    exact hnew hid
  sent := by
    intro e he
    rcases List.mem_append.mp he with he | he
    · exact getElem?_append_some (h.sent e he) _
    · obtain rfl := List.mem_singleton.mp he
      simp
  accounted := by
    have := h.accounted
    simp only [List.map_append, List.map_cons, List.map_nil, List.length_append,
      List.length_singleton, List.range_succ, List.append_assoc] at this ⊢
    exact (List.perm_append_comm.append_left _).trans
      ((List.append_assoc _ _ _ ▸ this.append_right [s.promises.length]))
  justified x hx := (h.justified x hx).mono id (List.prefix_append _ _)
  closed hclosed := absurd hclosed hopen

theorem Inv.request (h : s.Inv) (method : String) (params : Option Json) :
    (s.request method params).Inv := by
  rw [Client.request]
  split_ifs with hclosed
  · exact h.refuse hclosed method
  · exact h.send hclosed method params

theorem justified_answer {p : ℕ} {msg : Json}
    (h : ∃ id : ℕ, s.promises[p]? = some (some id) ∧ msg.get? "id" = some (.num id)) :
    s.Justified ⟨p, answer msg⟩ := by
  rw [answer]
  split
  · exact h
  · exact h

theorem Inv.settle (h : s.Inv) {id : Num} {msg : Json} (hid : msg.get? "id" = some (.num id)) :
    (s.settle id msg).Inv := by
  rw [Client.settle]
  split
  case h_1 => exact h
  case h_2 e hfind =>
    obtain ⟨es₁, es₂, hpending, herase⟩ := eraseP_of_find hfind
    have hsub : es₁ ++ es₂ ⊆ s.pending := by
      rw [hpending]
      exact ((List.sublist_cons_self e es₂).append_left es₁).subset
    have hmem : e ∈ s.pending := hpending ▸ List.mem_append_right es₁ List.mem_cons_self
    have hmatch : (e.1 : Num) = id := by simpa using List.find?_some hfind
    refine ⟨h.written, h.fresh, h.nodup, ?_, ?_, ?_, ?_⟩
    · intro d hd
      exact h.sent d (hsub (herase ▸ hd))
    · have hperm := h.accounted
      simp only [hpending, List.map_append, List.map_cons, List.append_assoc] at hperm
      simp only [herase, List.map_append, List.map_cons, List.map_nil, List.append_assoc]
      refine List.Perm.trans (List.Perm.append_left _ ?_) hperm
      rw [← List.append_assoc]
      exact List.perm_append_comm
    · intro x hx
      rcases List.mem_append.mp hx with hx | hx
      · exact (h.justified x hx).mono (fun hc => hc) List.prefix_rfl
      · obtain rfl := List.mem_singleton.mp hx
        exact justified_answer ⟨e.1, h.sent e hmem, by rw [hid, hmatch]⟩
    · intro hclosed
      rw [h.closed hclosed] at hmem
      cases hmem

theorem Inv.notify (h : s.Inv) (method : String) (params : Option Json) :
    (s.notify method params).Inv := by
  rw [Client.notify]
  split
  · exact h
  · exact h.of_eq rfl rfl rfl rfl rfl rfl

theorem Inv.dispatch (h : s.Inv) (msg : Json) : (s.dispatch msg).Inv := by
  obtain heq | ⟨id, hid, heq⟩ | ⟨method, params, heq⟩ := dispatch_cases s msg
  · rwa [heq]
  · rw [heq]
    exact h.settle hid
  · rw [heq]
    exact h.notify method params

theorem Inv.onClose (h : s.Inv) (err : String) : (s.onClose err).Inv := by
  rw [Client.onClose]
  split_ifs
  · exact h
  refine ⟨h.written, h.fresh, h.nodup, List.forall_mem_nil _, ?_, ?_, fun _ => rfl⟩
  · have := h.accounted
    simp only [List.map_append, List.map_map, List.map_nil, List.nil_append]
    exact List.perm_append_comm.trans this
  · intro x hx
    rcases List.mem_append.mp hx with hx | hx
    · exact (h.justified x hx).mono (fun _ => rfl) List.prefix_rfl
    · obtain ⟨e, he, rfl⟩ := List.mem_map.mp hx
      exact ⟨rfl, e.1, h.sent e he⟩

theorem Inv.apply (h : s.Inv) (a : Action) : (s.apply a).Inv := by
  cases a with
  | request method params => exact h.request method params
  | frame body =>
    cases body with
    | none => exact h
    | some msg => exact h.dispatch msg
  | close err => exact h.onClose err
  | on method handler =>
    obtain ⟨sets, handlers, heq⟩ := on_cases s method handler
    rw [Client.apply, heq]
    exact h.of_eq rfl rfl rfl rfl rfl rfl
  | off set handler => exact h.of_eq rfl rfl rfl rfl rfl rfl

theorem inv_new : new.Inv where
  written := rfl
  fresh := List.forall_mem_nil _
  nodup := List.nodup_nil
  sent := List.forall_mem_nil _
  accounted := List.Perm.refl _
  justified := List.forall_mem_nil _
  closed _ := rfl

theorem inv_foldl (h : s.Inv) (as : List Action) : (as.foldl Client.apply s).Inv := by
  induction as generalizing s with
  | nil => exact h
  | cons a as ih => exact ih (h.apply a)

theorem inv_after (as : List Action) : (after as).Inv := inv_foldl inv_new as

/-- A closed client in which no handler was registered since. -/
structure Shut (s : Client) : Prop where
  closed : s.closed = true
  pending : s.pending = []
  handlers : s.handlers = []

theorem shut_onClose (hopen : s.closed = false) (err : String) :
    (s.onClose err).Shut ∧ (s.onClose err).delivered = s.delivered := by
  rw [Client.onClose, hopen]
  exact ⟨⟨rfl, rfl, rfl⟩, rfl⟩

theorem settle_of_pending_eq_nil (h : s.pending = []) (id : Num) (msg : Json) :
    s.settle id msg = s := by
  rw [Client.settle, pendingFor, h]
  rfl

theorem notify_of_handlers_eq_nil (h : s.handlers = []) (method : String) (params : Option Json) :
    s.notify method params = s := by
  rw [Client.notify, h]
  rfl

theorem Shut.dispatch (h : s.Shut) (msg : Json) : s.dispatch msg = s := by
  obtain heq | ⟨id, -, heq⟩ | ⟨method, params, heq⟩ := dispatch_cases s msg
  · exact heq
  · exact heq.trans (settle_of_pending_eq_nil h.pending id msg)
  · exact heq.trans (notify_of_handlers_eq_nil h.handlers method params)

theorem Shut.apply (h : s.Shut) {a : Action} (ha : ∀ method handler, a ≠ .on method handler) :
    (s.apply a).Shut ∧ (s.apply a).delivered = s.delivered := by
  cases a with
  | request method params =>
    rw [Client.apply, Client.request, if_pos h.closed]
    exact ⟨⟨h.closed, h.pending, h.handlers⟩, rfl⟩
  | frame body =>
    cases body with
    | none => exact ⟨h, rfl⟩
    | some msg =>
      rw [Client.apply, h.dispatch]
      exact ⟨h, rfl⟩
  | close err =>
    rw [Client.apply, Client.onClose, if_pos h.closed]
    exact ⟨h, rfl⟩
  | on method handler => exact absurd rfl (ha method handler)
  | off set handler => exact ⟨⟨h.closed, h.pending, h.handlers⟩, rfl⟩

theorem Shut.foldl (h : s.Shut) {as : List Action}
    (has : ∀ a ∈ as, ∀ method handler, a ≠ .on method handler) :
    (as.foldl Client.apply s).delivered = s.delivered := by
  induction as generalizing s with
  | nil => rfl
  | cons a as ih =>
    obtain ⟨hshut, hdelivered⟩ := h.apply (has a List.mem_cons_self)
    rw [List.foldl_cons, ih hshut fun b hb => has b (List.mem_cons_of_mem a hb), hdelivered]

theorem notify_rest (s : Client) (method : String) (params : Option Json) :
    (s.notify method params).closed = s.closed ∧
      (s.notify method params).pending = s.pending ∧
      (s.notify method params).written = s.written := by
  rw [Client.notify]
  split
  · exact ⟨rfl, rfl, rfl⟩
  · exact ⟨rfl, rfl, rfl⟩

/-- A closed client writes nothing more, and keeps no promise. -/
theorem apply_of_closed (hclosed : s.closed = true) (hpending : s.pending = []) (a : Action) :
    (s.apply a).closed = true ∧ (s.apply a).pending = [] ∧ (s.apply a).written = s.written := by
  cases a with
  | request method params =>
    rw [Client.apply, Client.request, if_pos hclosed]
    exact ⟨hclosed, hpending, rfl⟩
  | frame body =>
    cases body with
    | none => exact ⟨hclosed, hpending, rfl⟩
    | some msg =>
      rw [Client.apply]
      obtain heq | ⟨id, -, heq⟩ | ⟨method, params, heq⟩ := dispatch_cases s msg
      · rw [heq]
        exact ⟨hclosed, hpending, rfl⟩
      · rw [heq, settle_of_pending_eq_nil hpending]
        exact ⟨hclosed, hpending, rfl⟩
      · rw [heq]
        obtain ⟨hc, hp, hw⟩ := notify_rest s method params
        exact ⟨hc.trans hclosed, hp.trans hpending, hw⟩
  | close err =>
    rw [Client.apply, Client.onClose, if_pos hclosed]
    exact ⟨hclosed, hpending, rfl⟩
  | on method handler =>
    obtain ⟨sets, handlers, heq⟩ := on_cases s method handler
    rw [Client.apply, heq]
    exact ⟨hclosed, hpending, rfl⟩
  | off set handler => exact ⟨hclosed, hpending, rfl⟩

/-- Every promise is settled at most once, and by the response to its own request or by the close;
ids are not reused; a closed client has nothing pending, writes nothing and hears nothing. -/
theorem settled_by_own_response (as : List Action) :
    ((after as).settled.map Settlement.promise).Nodup ∧
    (∀ x ∈ (after as).settled, (after as).Justified x) ∧
    ((after as).written.map Request.id).Nodup ∧
    ((after as).closed = true →
      (after as).pending = [] ∧
      (∀ p < (after as).promises.length, p ∈ (after as).settled.map Settlement.promise) ∧
      (∀ a, ((after as).apply a).closed = true ∧ ((after as).apply a).pending = [] ∧
        ((after as).apply a).written = (after as).written) ∧
      ∀ method params, ((after as).apply (.request method params)).settled =
        (after as).settled ++ [⟨(after as).promises.length, .notRunning method⟩]) ∧
    ∀ before err later, as = before ++ .close err :: later → (after before).closed = false →
      (∀ a ∈ later, ∀ method handler, a ≠ .on method handler) →
      (after as).delivered = (after before).delivered := by
  have h := inv_after as
  refine ⟨?_, h.justified, h.written ▸ h.nodup, ?_, ?_⟩
  · have hnodup := h.accounted.nodup_iff.mpr List.nodup_range
    exact (List.nodup_append.mp hnodup).2.1
  · intro hclosed
    have hpending := h.closed hclosed
    refine ⟨hpending, ?_, apply_of_closed hclosed hpending, ?_⟩
    · intro p hp
      have hmem := h.accounted.mem_iff.mpr (List.mem_range.mpr hp)
      rwa [hpending, List.map_nil, List.nil_append] at hmem
    · intro method params
      rw [Client.apply, Client.request, if_pos hclosed]
  · rintro before err later rfl hopen hlater
    obtain ⟨hshut, hdelivered⟩ := shut_onClose hopen err
    rw [after, List.foldl_append, List.foldl_cons]
    exact (hshut.foldl hlater).trans hdelivered

end Client

end ValyriaApp.Rpc
