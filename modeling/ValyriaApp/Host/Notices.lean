import ValyriaApp.Host.Channel

/-! # The notices of the host

A handler that stays registered for a method is called once for each notice of
that method, in the order the host wrote them, wherever the stream is cut into
chunks and whatever responses come in between.
-/

namespace ValyriaApp.Rpc

/-- The params of a notice of the method. -/
def Outgoing.paramsOf (method : String) : Outgoing → Option Json
  | .notification m params => if m = method then some params else none
  | _ => none

namespace Client

variable {s t : Client} {method m : String} {handler k : ℕ}

def handlersOf (s : Client) (method : String) : List ℕ :=
  (s.handlers.lookup method).elim [] fun set => s.sets.getD set []

/-- What a handler was called with. -/
def calls (s : Client) (handler : ℕ) : List (Option Json) :=
  s.delivered.filterMap fun d => if d.1 = handler then some d.2 else none

/-- The handler stands once in the set of the method, and in no other. -/
structure Listening (s : Client) (method : String) (handler : ℕ) : Prop where
  distinct : (s.handlers.map Prod.snd).Nodup
  there : ∀ e ∈ s.handlers, e.2 < s.sets.length
  once : (s.handlersOf method).count handler = 1
  only : ∀ m, m ≠ method → handler ∉ s.handlersOf m

theorem mem_of_lookup {es : List (String × ℕ)} {set : ℕ} (h : es.lookup m = some set) :
    (m, set) ∈ es := by
  obtain ⟨before, after, rfl, -⟩ := List.lookup_eq_some_iff.mp h
  exact List.mem_append_right _ List.mem_cons_self

theorem method_of_lookup {es : List (String × ℕ)} {set : ℕ} (hes : (es.map Prod.snd).Nodup)
    (h : es.lookup m = some set) (h' : es.lookup method = some set) : m = method := by
  have hpair := List.inj_on_of_nodup_map hes (mem_of_lookup h) (mem_of_lookup h') rfl
  exact (Prod.mk.inj hpair).1

theorem getD_modify (sets : List (List ℕ)) (set set' : ℕ) (f : List ℕ → List ℕ) :
    (sets.modify set f).getD set' [] =
      if set = set' ∧ set < sets.length then f (sets.getD set' []) else sets.getD set' [] := by
  rw [List.getD_eq_getElem?_getD, List.getD_eq_getElem?_getD, List.getElem?_modify]
  by_cases hset : set = set'
  · subst hset
    cases hget : sets[set]? with
    | none =>
      have hlen := List.getElem?_eq_none_iff.mp hget
      simp [hlen]
    | some hs =>
      have hlen := (List.getElem?_eq_some_iff.mp hget).1
      simp [hlen]
  · simp [hset]

/-- `on` adds the handler to the set of its method, unless it is there. -/
theorem handlersOf_on (hdistinct : (s.handlers.map Prod.snd).Nodup)
    (hthere : ∀ e ∈ s.handlers, e.2 < s.sets.length) (m method : String) (k : ℕ) :
    (s.on m k).handlersOf method =
      if m = method then
        if k ∈ s.handlersOf method then s.handlersOf method else s.handlersOf method ++ [k]
      else s.handlersOf method := by
  cases hlookup : s.handlers.lookup m with
  | some set =>
    have hlt := hthere _ (mem_of_lookup hlookup)
    have hon : (s.on m k).handlersOf method = (s.handlers.lookup method).elim [] fun set' =>
        (s.sets.modify set fun hs => if k ∈ hs then hs else hs ++ [k]).getD set' [] := by
      rw [on, hlookup]
      rfl
    rw [hon, handlersOf]
    cases hlookup' : s.handlers.lookup method with
    | none =>
      have hne : m ≠ method := by
        rintro rfl
        rw [hlookup] at hlookup'
        cases hlookup'
      rw [if_neg hne]
      rfl
    | some set' =>
      simp only [Option.elim_some]
      rw [getD_modify]
      by_cases hmethod : m = method
      · subst hmethod
        obtain rfl := Option.some.inj (hlookup.symm.trans hlookup')
        rw [if_pos ⟨rfl, hlt⟩, if_pos rfl]
        rfl
      · have hset : set ≠ set' := by
          rintro rfl
          exact hmethod (method_of_lookup hdistinct hlookup hlookup')
        rw [if_neg (fun h => hset h.1), if_neg hmethod]
  | none =>
    have hon : (s.on m k).handlersOf method =
        ((s.handlers ++ [(m, s.sets.length)]).lookup method).elim [] fun set' =>
          (s.sets ++ [[k]]).getD set' [] := by
      rw [on, hlookup]
      rfl
    rw [hon, handlersOf, List.lookup_append]
    by_cases hmethod : m = method
    · subst hmethod
      simp [hlookup]
    · have hne : (method == m) = false := by simpa using Ne.symm hmethod
      rw [if_neg hmethod]
      cases hlookup' : s.handlers.lookup method with
      | none => simp [List.lookup_cons, hne]
      | some set' =>
        have hlt := hthere _ (mem_of_lookup hlookup')
        simp [List.getElem?_append_left hlt]

theorem Listening.on (h : s.Listening method handler) (hk : k = handler → m = method) :
    (s.on m k).Listening method handler := by
  have hhandlers := handlersOf_on h.distinct h.there m
  refine ⟨?_, ?_, ?_, ?_⟩
  · rw [Client.on]
    split
    · exact h.distinct
    · simp only [List.map_append, List.map_cons, List.map_nil, List.nodup_append,
        List.nodup_singleton, h.distinct, List.mem_map, List.mem_singleton, true_and]
      rintro _ ⟨e, he, rfl⟩ _ rfl heq
      exact (h.there e he).ne heq
  · rw [Client.on]
    split
    · intro e he
      rw [List.length_modify]
      exact h.there e he
    · intro e he
      rw [List.length_append, List.length_singleton]
      rcases List.mem_append.mp he with he | he
      · exact (h.there e he).trans (Nat.lt_succ_self _)
      · obtain rfl := List.mem_singleton.mp he
        exact Nat.lt_succ_self _
  · rw [hhandlers]
    split_ifs with hmethod hmem
    · exact h.once
    · have hne : handler ≠ k := by
        rintro rfl
        exact hmem (List.count_pos_iff.mp (h.once ▸ Nat.one_pos))
      rw [List.count_append, h.once, List.count_eq_zero.mpr (by simpa using hne)]
    · exact h.once
  · intro m' hm'
    rw [hhandlers]
    split_ifs with hmethod hmem
    · exact h.only m' hm'
    · subst hmethod
      rw [List.mem_append, List.mem_singleton]
      rintro (hmem' | rfl)
      · exact h.only m hm' hmem'
      · exact hm' (hk rfl)
    · exact h.only m' hm'

theorem Listening.off (h : s.Listening method handler) (set : ℕ) (hk : k ≠ handler) :
    (s.off set k).Listening method handler := by
  have hhandlers : ∀ m, (s.off set k).handlersOf m = s.handlersOf m ∨
      (s.off set k).handlersOf m = (s.handlersOf m).erase k := by
    intro m
    cases hlookup : s.handlers.lookup m with
    | none =>
      left
      rw [handlersOf, handlersOf, Client.off, hlookup]
      rfl
    | some set' =>
      have hoff : (s.off set k).handlersOf m =
          (s.sets.modify set fun hs => hs.erase k).getD set' [] := by
        rw [handlersOf, Client.off, hlookup]
        rfl
      rw [hoff, getD_modify, handlersOf, hlookup]
      split_ifs
      · exact Or.inr rfl
      · exact Or.inl rfl
  refine ⟨h.distinct, ?_, ?_, ?_⟩
  · intro e he
    rw [Client.off, List.length_modify]
    exact h.there e he
  · rcases hhandlers method with heq | heq
    · rw [heq, h.once]
    · rw [heq, List.count_erase_of_ne (Ne.symm hk), h.once]
  · intro m hm
    rcases hhandlers m with heq | heq
    · rw [heq]
      exact h.only m hm
    · rw [heq]
      exact fun hmem => h.only m hm (List.mem_of_mem_erase hmem)

theorem Listening.of_eq (h : s.Listening method handler) (hsets : t.sets = s.sets)
    (hhandlers : t.handlers = s.handlers) : t.Listening method handler := by
  have hof : t.handlersOf = s.handlersOf := by
    ext1 m
    rw [handlersOf, handlersOf, hsets, hhandlers]
  refine ⟨?_, ?_, ?_, ?_⟩
  · rw [hhandlers]
    exact h.distinct
  · rw [hhandlers, hsets]
    exact h.there
  · rw [hof]
    exact h.once
  · rw [hof]
    exact h.only

theorem listening_on_new (method : String) (handler : ℕ) :
    (new.on method handler).Listening method handler := by
  have hhandlers := handlersOf_on (s := new) List.nodup_nil (List.forall_mem_nil _) method
  refine ⟨List.nodup_singleton _, ?_, ?_, ?_⟩
  · intro e he
    obtain rfl := List.mem_singleton.mp he
    exact Nat.one_pos
  · rw [hhandlers, if_pos rfl]
    exact List.count_singleton_self
  · intro m hm
    rw [hhandlers, if_neg (Ne.symm hm)]
    exact List.not_mem_nil

/-! ### What the handler is called with -/

theorem filterMap_calls (hs : List ℕ) (handler : ℕ) (params : Option Json) :
    (hs.map (·, params)).filterMap (fun d => if d.1 = handler then some d.2 else none) =
      List.replicate (hs.count handler) params := by
  induction hs with
  | nil => rfl
  | cons k hs ih =>
    rw [List.map_cons, List.filterMap_cons, ih, List.count_cons]
    by_cases hk : k = handler
    · simp [hk, List.replicate_succ]
    · simp [hk]

theorem calls_notify (s : Client) (m : String) (params : Option Json) (handler : ℕ) :
    (s.notify m params).calls handler =
      s.calls handler ++ List.replicate ((s.handlersOf m).count handler) params := by
  rw [Client.notify]
  cases hlookup : s.handlers.lookup m with
  | none =>
    rw [handlersOf, hlookup]
    simp
  | some set =>
    rw [calls, List.filterMap_append, filterMap_calls, handlersOf, hlookup]
    rfl

theorem handlers_dispatch (s : Client) (msg : Json) :
    (s.dispatch msg).sets = s.sets ∧ (s.dispatch msg).handlers = s.handlers := by
  obtain heq | ⟨id, -, heq⟩ | ⟨method, params, heq⟩ := dispatch_cases s msg
  · rw [heq]
    exact ⟨rfl, rfl⟩
  · rw [heq, Client.settle]
    split
    · exact ⟨rfl, rfl⟩
    · exact ⟨rfl, rfl⟩
  · rw [heq, Client.notify]
    split
    · exact ⟨rfl, rfl⟩
    · exact ⟨rfl, rfl⟩

theorem calls_settle (s : Client) (id : Num) (msg : Json) (handler : ℕ) :
    (s.settle id msg).calls handler = s.calls handler := by
  rw [Client.settle]
  split
  · rfl
  · rfl

theorem calls_response (s : Client) {msg : Json} (hmethod : msg.get? "method" = none)
    (handler : ℕ) : (s.dispatch msg).calls handler = s.calls handler := by
  obtain heq | ⟨id, -, heq⟩ | ⟨method, params, heq⟩ := dispatch_cases s msg
  · rw [heq]
  · rw [heq, calls_settle]
  · rw [Client.dispatch, hmethod]
    split
    · split
      · exact calls_settle s _ msg handler
      · rfl
    · rfl

/-- A notice of the method calls the handler once, and nothing else does. -/
theorem Listening.calls_dispatch (h : s.Listening method handler) (msg : Outgoing) :
    (s.dispatch msg.json).calls handler =
      s.calls handler ++ ((msg.paramsOf method).map some).toList := by
  cases msg with
  | notification m params =>
    have hdispatch : s.dispatch (Outgoing.notification m params).json =
        s.notify m (some params) := by
      simp [Client.dispatch, Outgoing.json, Json.get?]
    rw [hdispatch, calls_notify]
    by_cases hm : m = method
    · subst hm
      rw [h.once]
      simp [Outgoing.paramsOf]
    · rw [List.count_eq_zero.mpr (h.only m hm)]
      simp [Outgoing.paramsOf, hm]
  | ok id result =>
    rw [calls_response s (by simp [Outgoing.json, Json.get?])]
    exact (List.append_nil _).symm
  | err id error =>
    rw [calls_response s (by simp [Outgoing.json, Json.get?])]
    exact (List.append_nil _).symm

end Client

end ValyriaApp.Rpc

namespace ValyriaApp.BridgeHost

open Lib Rpc

variable {S : Serde} {c d : Channel} {client : Client} {method : String} {handler : ℕ}
  {as : List ChannelAction}

/-- The handler stays registered for the method, and for no other, and the client stays open. -/
def Keeps (method : String) (handler : ℕ) : ChannelAction → Prop
  | .on m k => k = handler → m = method
  | .off _ k => k ≠ handler
  | .dispose => False
  | _ => True

theorem listening_hear (h : client.Listening method handler) (ms : List Outgoing) :
    (hear client ms).Listening method handler ∧ (hear client ms).calls handler =
      client.calls handler ++ (ms.filterMap (Outgoing.paramsOf method)).map some := by
  induction ms generalizing client with
  | nil => exact ⟨h, (List.append_nil _).symm⟩
  | cons m ms ih =>
    obtain ⟨hsets, hhandlers⟩ := Client.handlers_dispatch client m.json
    obtain ⟨hlistening, hcalls⟩ := ih (h.of_eq hsets hhandlers)
    refine ⟨hlistening, ?_⟩
    change (hear (client.dispatch m.json) ms).calls handler = _
    rw [hcalls, h.calls_dispatch]
    cases hm : m.paramsOf method <;> simp [hm]

/-- The handler was called with the notices that have reached the client. -/
structure Notified (S : Serde) (method : String) (handler : ℕ) (c : Channel) : Prop where
  inv : ChannelInv S c
  listening : c.client.Listening method handler
  calls : c.client.calls handler = (c.heard.filterMap (Outgoing.paramsOf method)).map some

theorem Notified.step : Machine.Preserves (Channel.step S)
    (fun c a => Channel.Carried S c a ∧ Keeps method handler a) (Notified S method handler) := by
  rintro c a d h ⟨hcarried, hkeeps⟩ hstep
  have hinv := ChannelInv.step h.inv hcarried hstep
  have hsame (hsets : d.client.sets = c.client.sets)
      (hhandlers : d.client.handlers = c.client.handlers)
      (hdelivered : d.client.delivered = c.client.delivered) (hheard : d.heard = c.heard) :
      Notified S method handler d := by
    refine ⟨hinv, h.listening.of_eq hsets hhandlers, ?_⟩
    rw [hheard, ← h.calls, Client.calls, hdelivered, Client.calls]
  cases a with
  | request m params =>
    cases hstep
    have hclient : ∀ {β : Type} (f : Client → β), (∀ s : Client, ∀ n ps es st ws,
        f { s with nextId := n, promises := ps, pending := es, settled := st, written := ws } =
          f s) → f (c.client.request m params) = f c.client := by
      intro β f hf
      rw [Client.request]
      split
      · exact hf c.client _ _ _ _ _
      · exact hf c.client _ _ _ _ _
    exact hsame (hclient Client.sets fun _ _ _ _ _ _ => rfl)
      (hclient Client.handlers fun _ _ _ _ _ _ => rfl)
      (hclient Client.delivered fun _ _ _ _ _ _ => rfl) rfl
  | on m k =>
    cases hstep
    refine ⟨hinv, h.listening.on hkeeps, ?_⟩
    obtain ⟨sets, handlers, heq⟩ := Client.on_cases c.client m k
    change (c.client.on m k).calls handler = _
    rw [heq]
    exact h.calls
  | off set k =>
    cases hstep
    exact ⟨hinv, h.listening.off set hkeeps, h.calls⟩
  | dispose => exact hkeeps.elim
  | serve world chunks =>
    obtain ⟨⟨-, hchunks, hne⟩, hstep⟩ := Option.ite_none_right_eq_some.mp hstep
    obtain ⟨q, rest, hq, hread, hrest⟩ := h.inv.requests.next hchunks hne
    rw [hread] at hstep
    cases hstep
    exact hsame rfl rfl rfl (List.take_append_of_le_length h.inv.wire.length_le)
  | notify m params =>
    obtain ⟨-, hstep⟩ := Option.ite_none_right_eq_some.mp hstep
    cases hstep
    exact hsame rfl rfl rfl (h.inv.wire.heard_write _)
  | supervise live =>
    obtain ⟨-, hstep⟩ := Option.ite_none_right_eq_some.mp hstep
    cases hstep
    exact hsame rfl rfl rfl rfl
  | arrive n =>
    cases hstep
    obtain ⟨hwire, ms, hheard, hclient⟩ := h.inv.wire.arrive n rfl
    obtain ⟨hlistening, hcalls⟩ := listening_hear h.listening ms
    refine ⟨hinv, ?_, ?_⟩
    · rw [hclient]
      exact hlistening
    · rw [hclient, hcalls, hheard, h.calls, List.filterMap_append, List.map_append]

theorem notified_on (S : Serde) (method : String) (handler : ℕ) :
    Notified S method handler { Channel.start with client := Client.new.on method handler } where
  inv := by
    obtain ⟨sets, handlers, heq⟩ := Client.on_cases Client.new method handler
    rw [heq]
    exact ChannelInv.start.of_handlers sets handlers
  listening := Client.listening_on_new method handler
  calls := rfl

/-- A handler that stays registered is called with the notices of its method that have reached the
client, each once and in the order they were written; with the pipe empty that is all of them. -/
theorem notices_in_order
    (hg : Machine.Guarded (Channel.step S)
      (fun c a => Channel.Carried S c a ∧ Keeps method handler a) .start (.on method handler :: as))
    (hr : Machine.run (Channel.step S) .start (.on method handler :: as) = some c) :
    c.client.calls handler =
      ((c.out.take c.fed.out.length).filterMap (Outgoing.paramsOf method)).map some ∧
    (c.stdout = [] →
      c.client.calls handler = (c.out.filterMap (Outgoing.paramsOf method)).map some) := by
  have h : Notified S method handler c :=
    Notified.step.run (notified_on S method handler) (hg.2 _ rfl) hr
  refine ⟨h.calls, fun hempty => ?_⟩
  rw [h.calls, h.inv.wire.out_eq.2.2 hempty]

def closedNotice : Outgoing := .notification "core/closed" (.obj [("lastSeq", .num 3)])

def stateNotice (state : String) : Outgoing :=
  .notification "core/connectionState" (.obj [("state", .str state)])

def closedBody : Bytes :=
  Utf8.ascii ("\x7b\"jsonrpc\":\"2.0\",\"method\":\"core/closed\"," ++
    "\"params\":\x7b\"lastSeq\":3\x7d\x7d").toList

def stateBody (state : String) : Bytes :=
  Utf8.ascii ("\x7b\"jsonrpc\":\"2.0\",\"method\":\"core/connectionState\"," ++
    "\"params\":\x7b\"state\":\"" ++ state ++ "\"\x7d\x7d").toList

def parseNotice (bs : Bytes) : Option Json :=
  if bs = closedBody then some closedNotice.json
  else if bs = stateBody "ready" then some (stateNotice "ready").json
  else if bs = stateBody "reconnecting" then some (stateNotice "reconnecting").json else none

/-- JSON as far as these three notices go. -/
def noticeSerde : Serde where
  toVec m := match (m.get? "params").bind (·.get? "state") with
    | none => closedBody
    | some (.str "ready") => stateBody "ready"
    | some _ => stateBody "reconnecting"
  fromSlice _ := .error "expected value"
  stringify _ := []
  parse := parseNotice

/-- Notices of two methods, each with a handler of its own; the chunks end inside the notices. -/
def noticeRun : List ChannelAction :=
  [.on "core/connectionState" 0, .on "core/closed" 1,
    .notify "core/connectionState" (.obj [("state", .str "reconnecting")]),
    .notify "core/closed" (.obj [("lastSeq", .num 3)]), .arrive 150,
    .notify "core/connectionState" (.obj [("state", .str "ready")]), .arrive 100, .arrive 400]

def noticeReached : Channel :=
  (Machine.run (Channel.step noticeSerde) .start noticeRun).get (by decide +kernel)

theorem noticeBodies_differ : closedBody ≠ stateBody "ready" ∧
    closedBody ≠ stateBody "reconnecting" ∧ stateBody "ready" ≠ stateBody "reconnecting" := by
  decide +kernel

theorem closedNotice_carried : noticeSerde.Carries closedNotice where
  parse_toVec := by
    change parseNotice closedBody = some closedNotice.json
    rw [parseNotice, if_pos rfl]
  length_lt := by
    change closedBody.length < 2 ^ 53
    decide +kernel

theorem ready_carried : noticeSerde.Carries (stateNotice "ready") where
  parse_toVec := by
    change parseNotice (stateBody "ready") = some (stateNotice "ready").json
    rw [parseNotice, if_neg (Ne.symm noticeBodies_differ.1), if_pos rfl]
  length_lt := by
    change (stateBody "ready").length < 2 ^ 53
    decide +kernel

theorem reconnecting_carried : noticeSerde.Carries (stateNotice "reconnecting") where
  parse_toVec := by
    change parseNotice (stateBody "reconnecting") = some (stateNotice "reconnecting").json
    rw [parseNotice, if_neg (Ne.symm noticeBodies_differ.2.1),
      if_neg (Ne.symm noticeBodies_differ.2.2), if_pos rfl]
  length_lt := by
    change (stateBody "reconnecting").length < 2 ^ 53
    decide +kernel

theorem notices_in_order_two_methods : noticeReached.client.calls 0 =
    [some (.obj [("state", .str "reconnecting")]), some (.obj [("state", .str "ready")])] := by
  have hg : Machine.Guarded (Channel.step noticeSerde)
      (fun c a => Channel.Carried noticeSerde c a ∧ Keeps "core/connectionState" 0 a) .start
      noticeRun := by
    refine Machine.guarded_of_forall ?_
    intro a ha c
    simp only [noticeRun, List.mem_cons, List.not_mem_nil, or_false] at ha
    rcases ha with rfl | rfl | rfl | rfl | rfl | rfl | rfl | rfl
    · exact ⟨trivial, fun _ => rfl⟩
    · exact ⟨trivial, nofun⟩
    · exact ⟨reconnecting_carried, trivial⟩
    · exact ⟨closedNotice_carried, trivial⟩
    · exact ⟨trivial, trivial⟩
    · exact ⟨ready_carried, trivial⟩
    · exact ⟨trivial, trivial⟩
    · exact ⟨trivial, trivial⟩
  have hrun : Machine.run (Channel.step noticeSerde) .start noticeRun = some noticeReached :=
    (Option.some_get _).symm
  have hempty : noticeReached.stdout = [] := by decide +kernel
  have hout : noticeReached.out =
      [stateNotice "reconnecting", closedNotice, stateNotice "ready"] := rfl
  rw [(notices_in_order hg hrun).2 hempty, hout]
  rfl

end ValyriaApp.BridgeHost
