import ValyriaApp.Host.Sessions

/-! # Who owns the daemon

The handle on a spawned daemon is kept in one session, and an adopted session
has none. A host that opens a workspace again, or restarts its session, finds
the daemon it spawned itself still running and adopts it without the handle.
-/

namespace ValyriaApp.BridgeHost

open Bridge

section Calls

variable {w w' : World} {c c' : Call} {a : CallAction}

theorem hello_of_readMeta {n : NegotiatedSession} {token : Option String}
    (h : callStep w c a = some (w', c')) (hpc : c'.pc = .readMeta n token) :
    a = .hello .answered ∧ ∃ d x, w.dir.sock = .bound d ∧ w.daemons[d]? = some x ∧
      x.alive = true ∧ major x.hello.protocolVersion = major c.config.expectedProtocol := by
  unfold callStep at h
  split at h
  case h_5 reply token' _ =>
    obtain ⟨r, hr, h⟩ := Option.bind_eq_some_iff.mp h
    split at h
    case h_1 n' hn =>
      obtain ⟨hello, rfl, hmajor⟩ := negotiate_eq_ok hn
      obtain ⟨d, hsock, x, hx, halive, rfl⟩ := respond_eq_hello hr
      refine ⟨?_, d, x, hsock, hx, halive, hmajor⟩
      cases reply with
      | answered => rfl
      | error code message => cases hr
      | other got => cases hr
    case h_2 => cases h; cases hpc
    case h_3 => cases h; cases hpc
  -- no other step goes on to read `meta.json`
  case h_1 => split_ifs at h <;> cases h <;> cases hpc
  case h_2 => cases h; dsimp only at hpc; split_ifs at hpc
  case h_3 =>
    split at h
    · cases h; dsimp only at hpc; split_ifs at hpc
    · cases h; cases hpc
  case h_4 | h_6 | h_7 | h_8 | h_9 | h_12 | h_13 => cases h; cases hpc
  case h_10 => split_ifs at h <;> cases h <;> cases hpc
  case h_11 hpoll =>
    obtain ⟨r, -, h⟩ := Option.bind_eq_some_iff.mp h
    split at h
    · cases h; cases hpc
    · cases h; cases hpc
    · split at h
      · cases h; cases hpc
      · cases h; rw [hpoll] at hpc; cases hpc
  case h_14 => cases h

theorem readMeta_of_returned {session : Session} (h : callStep w c a = some (w', c'))
    (hpc : c'.pc = .returned (.ok session)) (hchild : session.child = none) :
    ∃ n token, c.pc = .readMeta n token ∧ a = .readMeta := by
  have hstep := callStep_cases h
  cases hstep with
  | adopt n token hread =>
    refine ⟨n, token, hread, ?_⟩
    cases a with
    | readMeta => rfl
    | _ => simp [callStep, hread] at h
  | writeMeta => cases hpc; cases hchild
  | read pc _ hreading => cases hpc; cases hreading
  | wait token child hpoll => rw [hpoll] at hpc; cases hpc
  | _ => cases hpc

end Calls

namespace Sessions

variable (workspaceId : String → String)

/-- `try_adopt` is answered by a compatible daemon that this process spawned. -/
def adoptsOwn (s : Sessions) (o : Opening) (a : CallAction) : Bool :=
  let w := s.worlds (workspaceId o.root)
  match a, w.dir.sock with
  | .hello .answered, .bound d =>
    w.daemons[d]?.any (fun x => x.alive &&
      decide (major x.hello.protocolVersion = major o.call.config.expectedProtocol)) &&
    decide ((workspaceId o.root, d) ∈ s.spawned)
  | _, _ => false

def requestOpening : OpenPc → Option Opening
  | .opening _ o => some o
  | _ => none

def taskOpening : SupervisePc → Option Opening
  | .opening _ o => some o
  | _ => none

/-- No step adopts a daemon of this process. -/
def AdoptsOthers (s : Sessions) : Action → Prop
  | .requestCall a => ∀ o ∈ requestOpening s.request, s.adoptsOwn workspaceId o a = false
  | .taskCall i a => ∀ t ∈ s.tasks[i]?, ∀ o ∈ taskOpening t.pc,
      s.adoptsOwn workspaceId o a = false
  | _ => True

variable {workspaceId}

instance (s : Sessions) : (a : Action) → Decidable (AdoptsOthers workspaceId s a)
  | .requestCall a => inferInstanceAs (Decidable
      (∀ o ∈ requestOpening s.request, s.adoptsOwn workspaceId o a = false))
  | .taskCall i a => inferInstanceAs (Decidable
      (∀ t ∈ s.tasks[i]?, ∀ o ∈ taskOpening t.pc, s.adoptsOwn workspaceId o a = false))
  | .open .. | .install | .close | .restart _ | .shutdown .. | .wake _ | .suspend _ | .closed _
  | .ended _ | .build .. | .swap _ | .env .. | .elsewhere .. => inferInstanceAs (Decidable True)

/-- The daemon was there already, and this process did not spawn it. -/
def Foreign (s : Sessions) (ws : String) (daemon : Option ℕ) : Prop :=
  ∀ d, daemon = some d → d < (s.worlds ws).daemons.length ∧ (ws, d) ∉ s.spawned

/-- A call that adopts was answered by a foreign daemon. -/
def AdoptsForeign (workspaceId : String → String) (s : Sessions) (o : Opening) : Prop :=
  (∀ n token, o.call.pc = .readMeta n token → s.Foreign (workspaceId o.root) o.answeredBy) ∧
  ∀ session, o.call.pc = .returned (.ok session) → session.child = none →
    s.Foreign (workspaceId o.root) o.answeredBy

/-- A session without a handle is served by a foreign daemon. -/
def ServedForeign (s : Sessions) (held : HeldSession) : Prop :=
  held.session.child = none → s.Foreign held.id held.servedBy

variable {s t : Sessions}

theorem Foreign.grows {ws : String} {daemon : Option ℕ} (hg : s.Grows t)
    (h : s.Foreign ws daemon) : t.Foreign ws daemon := by
  intro d hd
  obtain ⟨hlt, hnot⟩ := h d hd
  refine ⟨hlt.trans_le (hg.length ws), fun hmem => ?_⟩
  rcases hg.spawned ws d hmem with hold | hnew
  · exact hnot hold
  · omega

theorem adoptsOwn_eq_false_of_allowed {o : Opening} {a : CallAction}
    (h : Allowed (AdoptsOthers workspaceId) s o a) : s.adoptsOwn workspaceId o a = false := by
  rcases h with ⟨hg, mode, hrequest⟩ | ⟨i, x, k, hg, hx, hpc⟩
  · exact hg o (by rw [hrequest]; rfl)
  · exact hg x hx o (by rw [hpc]; rfl)

theorem AdoptsForeign.call {o o' : Opening} {a : CallAction}
    (h : s.AdoptsForeign workspaceId o) (ha : Allowed (AdoptsOthers workspaceId) s o a)
    (hs : s.stepOpening workspaceId o a = some (t, o')) : t.AdoptsForeign workspaceId o' := by
  have hg := (stepOpening_eq hs).1
  obtain ⟨⟨w, call⟩, hcall, hs⟩ := Option.bind_eq_some_iff.mp hs
  cases hs
  constructor
  · intro n token hpc
    obtain ⟨rfl, d, x, hsock, hx, halive, hmajor⟩ := hello_of_readMeta hcall hpc
    have hanswer : answering (s.worlds (workspaceId o.root)) (.hello .answered) = some d := by
      rw [answering, hsock]
    have hown := adoptsOwn_eq_false_of_allowed ha
    simp only [adoptsOwn, hsock, hx, Option.any_some, halive, hmajor, Bool.true_and, decide_true,
      decide_eq_false_iff_not] at hown
    refine Foreign.grows hg ?_
    rw [hanswer, Option.some_or]
    rintro e ⟨⟩
    exact ⟨(List.getElem?_eq_some_iff.mp hx).1, hown⟩
  · intro session hpc hchild
    obtain ⟨n, token, hread, rfl⟩ := readMeta_of_returned hcall hpc hchild
    exact Foreign.grows hg (h.1 n token hread)

theorem carried_foreign : Carried workspaceId (AdoptsOthers workspaceId)
    (AdoptsForeign workspaceId) (fun s _ held => s.ServedForeign held) where
  growsP hg h := ⟨fun n token hpc => (h.1 n token hpc).grows hg,
    fun session hpc hchild => (h.2 session hpc hchild).grows hg⟩
  growsQ hg h hchild := (h hchild).grows hg
  fresh _ _ _ := ⟨fun _ _ hpc => (nomatch hpc), fun _ hpc => (nomatch hpc)⟩
  call := AdoptsForeign.call
  returned h hpc hchild := h.2 _ hpc hchild
  swap _ _ _ h := h

def isOwned (held : HeldSession) : Bool := held.session.child.isSome

/-- While no daemon of this process is adopted, the live session owns the daemon that serves it if
this process spawned it, and a restart is not refused for want of ownership. -/
theorem spawned_is_owned (workspaceId : String → String) (worlds : String → World)
    {as : List Action} (hg : Machine.Guarded (step workspaceId) (AdoptsOthers workspaceId)
      (start worlds) as)
    (hr : Machine.run (step workspaceId) (start worlds) as = some s) :
    ∀ e d, s.live = some e → e.session.servedBy = some d → (e.session.id, d) ∈ s.spawned →
      (s.worlds e.session.id).alive d = true →
      isOwned e.session = true ∧
      ∀ mode t, s.step workspaceId (.restart mode) = some t → t.answers = s.answers := by
  have hpres : Machine.Preserves (step workspaceId) (AdoptsOthers workspaceId)
      (All (AdoptsForeign workspaceId) (fun s _ held => s.ServedForeign held)) :=
    fun _ _ _ hs hg ht => hs.step carried_foreign hg ht
  have h := hpres.run (all_start worlds) hg hr
  intro e d he hserved hspawned _
  have howned : e.session.session.child ≠ none := by
    intro hchild
    exact (h.live e he hchild d hserved).2 hspawned
  refine ⟨Option.isSome_iff_ne_none.mpr howned, ?_⟩
  intro mode t ht
  simp only [Sessions.step] at ht
  split at ht
  · cases ht
    rw [stepRestart, he]
    simp only [howned, if_false]
  · cases ht

def spawnCalls : List Action :=
  [.requestCall (.prepare true true), .requestCall .look, .requestCall (.unlink true),
    .requestCall (.writeToken "t0" none), .requestCall (.spawn ⟨"1.12.0", "0.4.0", []⟩ true),
    .env "/a" (.up 0), .requestCall (.poll .answered none), .requestCall (.writePid true),
    .requestCall (.writeMeta true 0)]

def emptyWorld : World := ⟨[], ⟨.absent, none, none, none⟩⟩

theorem spawned_is_owned_once :
    ∃ s e, Machine.run (step id) (start fun _ => emptyWorld)
      (.open "/a" none true :: spawnCalls ++ [.install]) = some s ∧ s.live = some e ∧
      isOwned e.session = true := by
  obtain ⟨s, hs⟩ : ∃ s, Machine.run (step id) (start fun _ => emptyWorld)
      (.open "/a" none true :: spawnCalls ++ [.install]) = some s := ⟨_, rfl⟩
  obtain ⟨e, he⟩ : ∃ e, s.live = some e := by
    cases hs
    exact ⟨_, rfl⟩
  have howned := spawned_is_owned id (fun _ => emptyWorld) (by decide +kernel) hs e 0 he
  refine ⟨s, e, hs, he, (howned ?_ ?_ ?_).1⟩
  all_goals
    cases hs
    cases he
    decide +kernel

/-- The workspace is opened again while its daemon runs: the daemon is adopted, the handle on it is
lost, and the restart is refused. -/
theorem reopened_not_owned :
    ∃ s e, Machine.run (step id) (start fun _ => emptyWorld)
      (.open "/a" none true :: spawnCalls ++ .install :: .open "/a" none true ::
        adoption.map .requestCall ++ [.install]) = some s ∧
      s.live = some e ∧ e.session.servedBy = some 0 ∧ (e.session.id, 0) ∈ s.spawned ∧
      (s.worlds e.session.id).alive 0 = true ∧ isOwned e.session = false ∧
      ∃ t, s.step id (.restart "ask") = some t ∧ t.answers = s.answers ++ [.notOwned] :=
  ⟨_, _, rfl, rfl, rfl, by decide +kernel, by decide +kernel, rfl, _, rfl, rfl⟩

end Sessions

end ValyriaApp.BridgeHost
