import Mathlib.Data.Int.Notation
import Mathlib.Data.List.Basic
import Mathlib.Tactic.SplitIfs
import ValyriaApp.Lib.Machine

/-! # The bridge-host child process

The extension keeps one child process and one client over its streams, respawns
the child when it exits by itself, and replaces it on a restart. Exit events
come later than the exits, and do not say which child they are of.
-/

namespace ValyriaApp.Extension

/-- A child process; its exit event sets the exit code, which a signal leaves `null`. -/
structure Child where
  signalled : Bool
  exited : Bool
  reported : Bool
  exitCode : Option ℤ
  deriving DecidableEq

def Child.spawned : Child := ⟨false, false, false, none⟩

/-- A child that has been neither sent `SIGTERM` nor exited. -/
def Child.live (c : Child) : Bool := !c.signalled && !c.exited

def respawnBackoffMs : List ℕ := [500, 1000, 2000, 4000, 8000]

structure Timer where
  handle : ℕ
  delay : ℕ
  deriving DecidableEq

/-- `BridgeHost`; a child, and the client over its streams, is its place among the children. -/
structure BridgeHost where
  children : List Child
  proc : Option ℕ
  client : Option ℕ
  disposed : List ℕ
  intentionalStop : Bool
  respawns : ℕ
  respawnTimer : Option ℕ
  timers : List Timer
  nextTimer : ℕ
  exitsFired : List (Option ℤ)
  respawnsFired : ℕ
  deriving DecidableEq

namespace BridgeHost

def new : BridgeHost where
  children := []
  proc := none
  client := none
  disposed := []
  intentionalStop := false
  respawns := 0
  respawnTimer := none
  timers := []
  nextTimer := 0
  exitsFired := []
  respawnsFired := 0

/-- `exitCode === null` of a child. -/
def exitCodeNull (s : BridgeHost) (c : ℕ) : Bool := s.children[c]?.all (·.exitCode = none)

def running (s : BridgeHost) : Bool := s.proc.any s.exitCodeNull

/-- `start`; when no binary is found it throws half-way. -/
def start (s : BridgeHost) (found : Bool) : BridgeHost :=
  if s.running then s
  else if found then
    { s with
      intentionalStop := false
      children := s.children ++ [.spawned]
      proc := some s.children.length
      client := some s.children.length }
  else { s with intentionalStop := false }

/-- The client is disposed, if there is one, and forgotten. -/
def disposeClient (s : BridgeHost) : BridgeHost :=
  { s with disposed := s.disposed ++ s.client.toList, client := none }

def onProcExit (s : BridgeHost) (code : Option ℤ) : BridgeHost :=
  let s := s.disposeClient
  let s := { s with proc := none, exitsFired := s.exitsFired ++ [code] }
  if s.intentionalStop then s
  else if respawnBackoffMs.length ≤ s.respawns then s
  else
    { s with
      respawns := s.respawns + 1
      respawnTimer := some s.nextTimer
      timers := s.timers ++ [⟨s.nextTimer, respawnBackoffMs.getD s.respawns 8000⟩]
      nextTimer := s.nextTimer + 1 }

def markHealthy (s : BridgeHost) : BridgeHost := { s with respawns := 0 }

/-- `SIGTERM` for the current child, unless its exit code is known. -/
def killProc (s : BridgeHost) : BridgeHost :=
  match s.proc with
  | some c =>
    if s.exitCodeNull c then
      { s with children := s.children.modify c fun x => { x with signalled := true } }
    else s
  | none => s

def stop (s : BridgeHost) : BridgeHost :=
  let s := { s with
    intentionalStop := true
    timers := s.timers.filter fun t => some t.handle ≠ s.respawnTimer }
  { s.disposeClient.killProc with proc := none }

def restart (s : BridgeHost) (found : Bool) : BridgeHost :=
  { s.stop with respawns := 0 }.start found

inductive Action where
  | start (found : Bool)
  | stop
  | restart (found : Bool)
  | markHealthy
  | timer (handle : ℕ) (found : Bool)
  /-- The process of a child ends. -/
  | die (c : ℕ)
  /-- The exit event of a child, with its exit code. -/
  | exit (c : ℕ) (code : Option ℤ)
  /-- The spawn of a child failed: an `error` event and no exit event. -/
  | spawnError (c : ℕ) (code : ℤ)
  deriving DecidableEq

def step (s : BridgeHost) : Action → Option BridgeHost
  | .start found => some (s.start found)
  | .stop => some s.stop
  | .restart found => some (s.restart found)
  | .markHealthy => some s.markHealthy
  | .timer handle found =>
    if s.timers.any (·.handle = handle) then
      let t := { s with timers := s.timers.filter (·.handle ≠ handle) }.start found
      some { t with respawnsFired := t.respawnsFired + if s.running || found then 1 else 0 }
    else none
  | .die c =>
    if s.children[c]?.any (!·.exited) then
      some { s with children := s.children.modify c fun x => { x with exited := true } }
    else none
  | .exit c code =>
    if s.children[c]?.any fun x => x.exited && !x.reported then
      some ({ s with children := s.children.modify c fun x =>
        { x with reported := true, exitCode := code } }.onProcExit code)
    else none
  | .spawnError c code =>
    if s.children[c]?.any (!·.exited) then
      some { s with children := s.children.modify c fun x =>
        { x with exited := true, reported := true, exitCode := some code } }
    else none

/-- The child `c` is there, and live. -/
def Live (s : BridgeHost) (c : ℕ) : Prop := ∃ x, s.children[c]? = some x ∧ x.live = true

/-- What holds of every host: the client is the one over the streams of the current child, there is
neither after an intentional stop, and a child with an exit code has exited. -/
structure Inv (s : BridgeHost) : Prop where
  client : s.client = s.proc
  stopped : s.intentionalStop = true → s.proc = none
  exited : ∀ (c : ℕ) (x : Child), s.children[c]? = some x → x.exitCode ≠ none → x.exited = true
  bound : ∀ c ∈ s.proc, c < s.children.length

/-- An exit event acts on the child it belongs to, or on nothing: the host is stopped, or it has
neither a child nor an attempt to respawn one left. -/
def Harmless (s : BridgeHost) (c : ℕ) : Prop :=
  s.proc = some c ∨ s.intentionalStop = true ∨
    s.proc = none ∧ respawnBackoffMs.length ≤ s.respawns

instance (s : BridgeHost) (c : ℕ) : Decidable (s.Harmless c) :=
  inferInstanceAs (Decidable (_ ∨ _ ∨ _ ∧ _))

/-- No exit event of a stopped or superseded child comes after the host was started again. -/
def InTime (s : BridgeHost) : Action → Prop
  | .exit c _ => s.Harmless c
  | _ => True

instance (s : BridgeHost) : (a : Action) → Decidable (s.InTime a)
  | .exit c _ => inferInstanceAs (Decidable (s.Harmless c))
  | .start _ | .stop | .restart _ | .markHealthy | .timer _ _ | .die _ | .spawnError _ _ =>
    inferInstanceAs (Decidable True)

/-- Nothing that an exit event can take away or set going. -/
structure Untouched (s t : BridgeHost) : Prop where
  client : t.client = s.client
  proc : t.proc = s.proc
  disposed : t.disposed = s.disposed
  timers : t.timers = s.timers
  respawns : t.respawns = s.respawns

/-- The only live child is the current one. -/
def OnlyProc (s : BridgeHost) : Prop := ∀ c, s.Live c → s.proc = some c

variable {s t : BridgeHost} {c d : ℕ}

theorem modify_cases {xs : List Child} {f : Child → Child} {y : Child}
    (h : (xs.modify d f)[c]? = some y) :
    ∃ x, xs[c]? = some x ∧ (y = x ∨ c = d ∧ y = f x) := by
  rw [List.getElem?_modify] at h
  obtain ⟨x, hx, hy⟩ := Option.map_eq_some_iff.mp h
  refine ⟨x, hx, ?_⟩
  split_ifs at hy with hd
  · exact .inr ⟨hd.symm, hy.symm⟩
  · exact .inl hy.symm

theorem append_cases {xs : List Child} {x y : Child} (h : (xs ++ [x])[c]? = some y) :
    xs[c]? = some y ∨ c = xs.length ∧ y = x := by
  rcases Nat.lt_trichotomy c xs.length with hc | rfl | hc
  · exact .inl (List.getElem?_append_left hc ▸ h)
  · exact .inr ⟨rfl, by simpa using h.symm⟩
  · rw [List.getElem?_eq_none (by simp; omega)] at h
    cases h

/-- The branches of `start`. -/
inductive Started (s : BridgeHost) : BridgeHost → Prop
  | already : s.running = true → Started s s
  | missing : s.running = false → Started s { s with intentionalStop := false }
  | spawned : s.running = false → Started s { s with
      intentionalStop := false
      children := s.children ++ [.spawned]
      proc := some s.children.length
      client := some s.children.length }

theorem started (s : BridgeHost) (found : Bool) : s.Started (s.start found) := by
  rw [start]
  split_ifs with hrun hfound
  · exact .already hrun
  · exact .spawned (Bool.eq_false_iff.mpr hrun)
  · exact .missing (Bool.eq_false_iff.mpr hrun)

theorem Inv.start (h : s.Inv) (found : Bool) : (s.start found).Inv := by
  have hstart := started s found
  generalize s.start found = t at hstart ⊢
  cases hstart with
  | already => exact h
  | missing => exact ⟨h.client, (nomatch ·), h.exited, h.bound⟩
  | spawned =>
    refine ⟨rfl, (nomatch ·), ?_, ?_⟩
    · intro c x hx hcode
      rcases append_cases hx with hx | ⟨rfl, rfl⟩
      · exact h.exited c x hx hcode
      · exact absurd rfl hcode
    · rintro c ⟨⟩
      simp

theorem stop_client (s : BridgeHost) : s.stop.client = none := by
  rw [stop, killProc]
  split
  · split_ifs <;> rfl
  · rfl

theorem stop_child {x : Child} (hx : s.stop.children[c]? = some x) :
    ∃ y, s.children[c]? = some y ∧ (x = y ∨ x = { y with signalled := true }) ∧
      (s.proc = some c → y.exitCode = none → x.signalled = true) := by
  rw [stop, killProc] at hx
  split at hx
  case h_1 d hproc =>
    change s.proc = some d at hproc
    split_ifs at hx with hnull
    · obtain ⟨y, hy, hxy⟩ := modify_cases hx
      refine ⟨y, hy, ?_, ?_⟩
      · exact hxy.imp_right And.right
      · intro hc _
        obtain rfl : d = c := Option.some.inj (hproc.symm.trans hc)
        change s.children[d]? = some y at hy
        change (s.children.modify d _)[d]? = some x at hx
        rw [List.getElem?_modify_eq, hy] at hx
        cases hx
        rfl
    · refine ⟨x, hx, .inl rfl, ?_⟩
      intro hc hcode
      obtain rfl : d = c := Option.some.inj (hproc.symm.trans hc)
      change s.children[d]? = some x at hx
      change ¬ (s.children[d]?.all (·.exitCode = none)) = true at hnull
      simp [hx, hcode] at hnull
  case h_2 hproc =>
    change s.proc = none at hproc
    refine ⟨x, hx, .inl rfl, ?_⟩
    intro hc
    rw [hproc] at hc
    cases hc

theorem Inv.stop (h : s.Inv) : s.stop.Inv := by
  refine ⟨stop_client s, fun _ => rfl, ?_, fun c hc => nomatch hc⟩
  intro c x hx hcode
  obtain ⟨y, hy, rfl | rfl, -⟩ := stop_child hx
  · exact h.exited c x hy hcode
  · exact h.exited c y hy hcode

theorem onProcExit_eq (s : BridgeHost) (code : Option ℤ) :
    (s.onProcExit code).proc = none ∧ (s.onProcExit code).client = none ∧
      (s.onProcExit code).children = s.children ∧
      (s.onProcExit code).disposed = s.disposed ++ s.client.toList := by
  by_cases hstop : s.intentionalStop = true
  · simp [onProcExit, disposeClient, hstop]
  by_cases hrespawns : respawnBackoffMs.length ≤ s.respawns
  · simp [onProcExit, disposeClient, hstop, hrespawns]
  · simp [onProcExit, disposeClient, hstop, hrespawns]

theorem onProcExit_of_quiet (code : Option ℤ)
    (h : s.intentionalStop = true ∨ respawnBackoffMs.length ≤ s.respawns) :
    (s.onProcExit code).timers = s.timers ∧ (s.onProcExit code).respawns = s.respawns := by
  by_cases hstop : s.intentionalStop = true
  · simp [onProcExit, disposeClient, hstop]
  · simp [onProcExit, disposeClient, hstop, h.resolve_left hstop]

theorem Inv.onProcExit (h : s.Inv) (code : Option ℤ) : (s.onProcExit code).Inv := by
  obtain ⟨hproc, hclient, hchildren, -⟩ := onProcExit_eq s code
  refine ⟨hclient.trans hproc.symm, fun _ => hproc, ?_, ?_⟩
  · rw [hchildren]
    exact h.exited
  · intro c hc
    rw [hproc] at hc
    cases hc

theorem Inv.modify (h : s.Inv) (c : ℕ) {f : Child → Child}
    (hf : ∀ x, s.children[c]? = some x → (x.exitCode ≠ none → x.exited = true) →
      (f x).exitCode ≠ none → (f x).exited = true) :
    Inv { s with children := s.children.modify c f } := by
  refine ⟨h.client, h.stopped, ?_, ?_⟩
  · intro d y hy
    obtain ⟨x, hx, rfl | ⟨rfl, rfl⟩⟩ := modify_cases hy
    · exact h.exited d y hx
    · exact hf x hx (h.exited d x hx)
  · intro d hd
    rw [List.length_modify]
    exact h.bound d hd

theorem inv_new : new.Inv :=
  ⟨rfl, (nomatch ·), fun c x hx => by simp [new] at hx, fun c hc => nomatch hc⟩

theorem Inv.step (h : s.Inv) {a : Action} (hs : s.step a = some t) : t.Inv := by
  cases a with
  | start found =>
    cases hs
    exact h.start found
  | stop =>
    cases hs
    exact h.stop
  | restart found =>
    cases hs
    have hstop := h.stop
    exact Inv.start (s := { s.stop with respawns := 0 })
      ⟨hstop.client, hstop.stopped, hstop.exited, hstop.bound⟩ found
  | markHealthy =>
    cases hs
    exact ⟨h.client, h.stopped, h.exited, h.bound⟩
  | timer handle found =>
    obtain ⟨-, ⟨⟩⟩ := Option.ite_none_right_eq_some.mp hs
    have hstart := Inv.start (s := { s with timers := s.timers.filter (·.handle ≠ handle) })
      ⟨h.client, h.stopped, h.exited, h.bound⟩ found
    exact ⟨hstart.client, hstart.stopped, hstart.exited, hstart.bound⟩
  | die c =>
    obtain ⟨-, ⟨⟩⟩ := Option.ite_none_right_eq_some.mp hs
    exact h.modify c fun _ _ _ _ => rfl
  | exit c code =>
    obtain ⟨hc, ⟨⟩⟩ := Option.ite_none_right_eq_some.mp hs
    refine Inv.onProcExit (h.modify c ?_) code
    intro x hx _ _
    rw [hx, Option.any_some, Bool.and_eq_true] at hc
    exact hc.1
  | spawnError c code =>
    obtain ⟨-, ⟨⟩⟩ := Option.ite_none_right_eq_some.mp hs
    exact h.modify c fun _ _ _ _ => rfl

/-! ## One live child -/

theorem OnlyProc.start (h : s.Inv) (ho : s.OnlyProc) (found : Bool) : (s.start found).OnlyProc := by
  have hstart := started s found
  generalize s.start found = t at hstart ⊢
  cases hstart with
  | already => exact ho
  | missing => exact ho
  | spawned hrun =>
    rintro c ⟨x, hx, hlive⟩
    rcases append_cases hx with hx | ⟨rfl, -⟩
    · have hproc := ho c ⟨x, hx, hlive⟩
      have hcode : x.exitCode ≠ none := by
        intro hcode
        simp [running, hproc, exitCodeNull, hx, hcode] at hrun
      simp [Child.live, h.exited c x hx hcode] at hlive
    · rfl

theorem not_live_stop (h : s.Inv) (ho : s.OnlyProc) (c : ℕ) : ¬ s.stop.Live c := by
  rintro ⟨x, hx, hlive⟩
  obtain ⟨y, hy, hxy, hsignalled⟩ := stop_child hx
  have hy' : y.live = true := by
    rcases hxy with rfl | rfl
    · exact hlive
    · cases hlive
  by_cases hcode : y.exitCode = none
  · simp [Child.live, hsignalled (ho c ⟨y, hy, hy'⟩) hcode] at hlive
  · simp [Child.live, h.exited c y hy hcode] at hy'

theorem OnlyProc.modify (h : s.OnlyProc) (c : ℕ) {f : Child → Child}
    (hf : ∀ x, (f x).live = true → x.live = true) :
    OnlyProc { s with children := s.children.modify c f } := by
  rintro d ⟨y, hy, hlive⟩
  obtain ⟨x, hx, rfl | ⟨rfl, rfl⟩⟩ := modify_cases hy
  · exact h d ⟨y, hx, hlive⟩
  · exact h d ⟨x, hx, hf x hlive⟩

theorem live_of_exited {x : Child} (h : Child.live { x with exited := true } = true) :
    x.live = true := by
  simp [Child.live] at h

/-- An exit event in time leaves nobody behind. -/
theorem OnlyProc.exit (h : s.Inv) (ho : s.OnlyProc) {code : Option ℤ} (hg : s.Harmless c)
    (hs : s.step (.exit c code) = some t) : t.OnlyProc := by
  obtain ⟨hc, ⟨⟩⟩ := Option.ite_none_right_eq_some.mp hs
  rintro d ⟨y, hy, hlive⟩
  rw [(onProcExit_eq _ code).2.2.1] at hy
  obtain ⟨x, hx, hxy⟩ := modify_cases hy
  have hx' : x.live = true := by
    rcases hxy with rfl | ⟨-, rfl⟩
    · exact hlive
    · exact hlive
  have hproc := ho d ⟨x, hx, hx'⟩
  rcases hg with hg | hg | ⟨hg, -⟩
  · obtain rfl : c = d := Option.some.inj (hg.symm.trans hproc)
    rw [hx, Option.any_some, Bool.and_eq_true] at hc
    simp [Child.live, hc.1] at hx'
  · rw [h.stopped hg] at hproc
    cases hproc
  · rw [hg] at hproc
    cases hproc

theorem OnlyProc.step (h : s.Inv) (ho : s.OnlyProc) {a : Action} (hg : s.InTime a)
    (hs : s.step a = some t) : t.OnlyProc := by
  cases a with
  | start found =>
    cases hs
    exact ho.start h found
  | stop =>
    cases hs
    intro c hc
    exact absurd hc (not_live_stop h ho c)
  | restart found =>
    cases hs
    have hstop := h.stop
    refine OnlyProc.start (s := { s.stop with respawns := 0 })
      ⟨hstop.client, hstop.stopped, hstop.exited, hstop.bound⟩ ?_ found
    intro c hc
    exact absurd hc (not_live_stop h ho c)
  | markHealthy =>
    cases hs
    exact ho
  | timer handle found =>
    obtain ⟨-, ⟨⟩⟩ := Option.ite_none_right_eq_some.mp hs
    exact OnlyProc.start (s := { s with timers := s.timers.filter (·.handle ≠ handle) })
      ⟨h.client, h.stopped, h.exited, h.bound⟩ ho found
  | die c =>
    obtain ⟨-, ⟨⟩⟩ := Option.ite_none_right_eq_some.mp hs
    exact ho.modify c fun _ => live_of_exited
  | exit c code => exact OnlyProc.exit h ho hg hs
  | spawnError c code =>
    obtain ⟨-, ⟨⟩⟩ := Option.ite_none_right_eq_some.mp hs
    exact ho.modify c fun _ => live_of_exited

/-- The exit event of another child than the current one leaves everything alone exactly when it
comes in time. -/
theorem untouched_iff (h : s.Inv) {code : Option ℤ} (hc : s.proc ≠ some c)
    (hs : s.step (.exit c code) = some t) : s.Untouched t ↔ s.Harmless c := by
  obtain ⟨-, ⟨⟩⟩ := Option.ite_none_right_eq_some.mp hs
  constructor
  · intro hu
    have hproc : s.proc = none := by
      rw [← hu.proc]
      exact (onProcExit_eq _ code).1
    by_cases hstop : s.intentionalStop = true
    · exact .inr (.inl hstop)
    refine .inr (.inr ⟨hproc, ?_⟩)
    by_contra hrespawns
    have := hu.respawns
    simp [onProcExit, disposeClient, hstop, hrespawns] at this
  · intro hg
    have hproc : s.proc = none := by
      rcases hg with hg | hg | hg
      · exact absurd hg hc
      · exact h.stopped hg
      · exact hg.1
    have hclient : s.client = none := h.client.trans hproc
    have hquiet : s.intentionalStop = true ∨ respawnBackoffMs.length ≤ s.respawns := by
      rcases hg with hg | hg | hg
      · exact absurd hg hc
      · exact .inl hg
      · exact .inr hg.2
    obtain ⟨hproc', hclient', -, hdisposed⟩ := onProcExit_eq
      { s with children := s.children.modify c fun x =>
        { x with reported := true, exitCode := code } } code
    obtain ⟨htimers, hrespawns⟩ := onProcExit_of_quiet (s :=
      { s with children := s.children.modify c fun x =>
        { x with reported := true, exitCode := code } }) code hquiet
    exact ⟨hclient'.trans hclient.symm, hproc'.trans hproc.symm, by simpa [hclient] using hdisposed,
      htimers, hrespawns⟩

/-- While exit events come in time, those of stopped or superseded children do nothing, and at most
one child is live. -/
theorem one_live_child {as : List Action} (hg : Machine.Guarded step InTime new as)
    (hr : Machine.run step new as = some s) :
    (∀ c d, s.Live c → s.Live d → c = d) ∧
    ∀ c code t, s.proc ≠ some c → s.InTime (.exit c code) → s.step (.exit c code) = some t →
      s.Untouched t := by
  have hpres : Machine.Preserves step InTime fun s => s.Inv ∧ s.OnlyProc :=
    fun _ _ _ hs hg ht => ⟨hs.1.step ht, OnlyProc.step hs.1 hs.2 hg ht⟩
  have hnew : new.OnlyProc := by
    rintro c ⟨x, hx, -⟩
    simp [new] at hx
  obtain ⟨h, ho⟩ := hpres.run ⟨inv_new, hnew⟩ hg hr
  constructor
  · intro c d hc hd
    exact Option.some.inj ((ho c hc).symm.trans (ho d hd))
  · intro c code t hc hg ht
    exact (untouched_iff h hc ht).mpr hg

/-- A restart whose old child reports its exit before the new one is started. -/
def stopFirst : List Action :=
  [.start true, .stop, .die 0, .exit 0 none, .start true, .die 1, .exit 1 (some 1), .timer 0 true]

theorem one_live_child_stopFirst :
    ∃ s, Machine.run step new stopFirst = some s ∧ s.Live 2 ∧
      ∀ c d, s.Live c → s.Live d → c = d := by
  obtain ⟨s, hs⟩ : ∃ s, Machine.run step new stopFirst = some s := ⟨_, rfl⟩
  refine ⟨s, hs, ?_, (one_live_child (by decide +kernel) hs).1⟩
  cases hs
  exact ⟨.spawned, rfl, rfl⟩

/-- The exit of the child that `restart` stopped disposes the client of the new one, and the
respawn it schedules puts a second live child beside it. -/
theorem restart_leaves_two_children :
    ∃ s t u, Machine.run step new [.start true, .restart true, .die 0] = some s ∧
      s.proc = some 1 ∧ s.step (.exit 0 none) = some t ∧ t.proc = none ∧ t.client = none ∧
      t.disposed = s.disposed ++ [1] ∧ t.timers ≠ [] ∧
      t.step (.timer 0 true) = some u ∧ u.Live 1 ∧ u.Live 2 :=
  ⟨_, _, _, rfl, rfl, rfl, rfl, rfl, rfl, by decide, rfl, ⟨.spawned, rfl, rfl⟩,
    ⟨.spawned, rfl, rfl⟩⟩

end BridgeHost

end ValyriaApp.Extension
