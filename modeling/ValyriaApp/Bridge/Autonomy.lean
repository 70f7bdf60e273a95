import ValyriaApp.Bridge.OneDaemon

/-! # The reported autonomy mode

The mode of an adopted daemon is read from `meta.json`, which is written only
after a start that succeeded and is never removed. While every start that gives
up leaves its daemon dead, no daemon can come up behind the record, and the file
speaks of the daemon on the socket.
-/

namespace ValyriaApp.Bridge

variable {w w' : World} {c c' : Call} {s s' : System} {i : ℕ}

def CallPc.isReturned : CallPc → Bool
  | .returned _ => true
  | _ => false

/-- A live daemon listens on the socket. -/
def World.answering (w : World) : Bool :=
  match w.dir.sock with
  | .bound d => w.alive d
  | _ => false

/-- What `read_meta_permission_mode` reads. -/
def World.recordedMode (w : World) : Option String := w.dir.metaJson.bind (·.permissionMode)

/-- Calls and shutdowns are run one after another. -/
def OneAfterAnother (s : System) : Action → Prop
  | .start _ => ∀ c ∈ s.calls, c.pc.isReturned = true
  | .shutdown .. => ∀ c ∈ s.calls, c.pc.isReturned = true
  | _ => True

/-- `meta.json` can be written, and the socket of a live daemon can be unlinked. -/
def filesWork (w : World) : CallAction → Bool
  | .unlink false => !w.answering
  | .writeMeta false _ => false
  | _ => true

/-- A start gives up only on a dead child, and the file operations on the record work. -/
def KeepsRecord (s : System) : Action → Prop
  | .call i a => ∀ c ∈ s.calls[i]?, (∀ child ∈ givesUp s.world c a, s.world.alive child = false) ∧
      filesWork s.world a = true
  | _ => True

instance (s : System) : ∀ a, Decidable (OneAfterAnother s a)
  | .start _ => inferInstanceAs (Decidable (∀ c ∈ s.calls, c.pc.isReturned = true))
  | .shutdown .. => inferInstanceAs (Decidable (∀ c ∈ s.calls, c.pc.isReturned = true))
  | .call _ _ => isTrue trivial
  | .env _ => isTrue trivial

instance (s : System) : ∀ a, Decidable (KeepsRecord s a)
  | .call i a => inferInstanceAs (Decidable (∀ c ∈ s.calls[i]?,
      (∀ child ∈ givesUp s.world c a, s.world.alive child = false) ∧ filesWork s.world a = true))
  | .start _ => isTrue trivial
  | .env _ => isTrue trivial
  | .shutdown .. => isTrue trivial

/-- The daemon that answers on the socket was started with the mode call `i` reports. -/
def ReportsRealMode (s : System) (i : ℕ) : Prop :=
  ∀ c session m d x, s.calls[i]? = some c → c.pc = .returned (.ok session) →
    session.permissionMode = some m → s.world.dir.sock = .bound d →
    s.world.daemons[d]? = some x → x.alive = true → x.permissionMode = some m

/-! ## The invariant -/

/-- Daemon `d` lives, in state `x`. -/
def World.Lives (w : World) (d : ℕ) (x : Daemon) : Prop :=
  w.daemons[d]? = some x ∧ x.alive = true

/-- A bound socket was bound by a daemon that came up. -/
def World.WellBound (w : World) : Prop :=
  ∀ d, w.dir.sock = .bound d → ∃ x, w.daemons[d]? = some x ∧ x.up = true

/-- Every live daemon has come up. -/
def World.AllUp (w : World) : Prop := ∀ d x, w.Lives d x → x.up = true

/-- No daemon is still to come up, and the record speaks of the daemon on the socket. -/
structure Settled (w : World) : Prop where
  allUp : w.AllUp
  record : ∀ d x m, w.dir.sock = .bound d → w.Lives d x → w.recordedMode = some m →
    x.permissionMode = some m

/-- Only `child`, started with `mode`, can answer on the socket. -/
structure OnlyChild (w : World) (child : ℕ) (mode : Option String) : Prop where
  bound : ∀ d x, w.dir.sock = .bound d → w.Lives d x → d = child
  mode : ∀ x, w.Lives child x → x.permissionMode = mode

/-- What holds while a call stands at `pc`. -/
def PhaseInv (w : World) (mode : Option String) : CallPc → Prop
  | .writeToken | .spawn _ => w.AllUp ∧ w.answering = false
  | .poll _ child => OnlyChild w child mode ∧ ∀ d x, w.Lives d x → x.up = false → d = child
  | .writePid _ _ child | .writeMeta _ _ child => OnlyChild w child mode ∧ w.AllUp
  | _ => Settled w

/-- All calls but at most one have returned, and the world is as that one's phase says. -/
structure ModeInv (s : System) : Prop where
  wellBound : s.world.WellBound
  idle : (∀ c ∈ s.calls, c.pc.isReturned = true) → Settled s.world
  phase : ∀ i c, s.calls[i]? = some c → c.pc.isReturned = false →
    PhaseInv s.world c.config.permissionMode c.pc ∧
      ∀ e ∈ s.calls.eraseIdx i, e.pc.isReturned = true

theorem settled_of_reading {mode : Option String} {pc : CallPc} (h : pc.reading = true) :
    PhaseInv w mode pc ↔ Settled w := by
  cases pc with
  | writeToken => cases h
  | spawn token => cases h
  | poll token child => cases h
  | writePid n token child => cases h
  | writeMeta n token child => cases h
  | _ => rfl

theorem not_returned_of_reading {pc : CallPc} (h : pc.reading = true) :
    pc.isReturned = false := by
  cases pc with
  | returned r => cases h
  | _ => rfl

theorem CallStep.running {a : CallAction} (h : CallStep w c a w' c') :
    c.pc.isReturned = false := by
  cases h with
  | read pc hread => exact not_returned_of_reading hread
  | unprepared e hread => exact not_returned_of_reading hread
  | fallThrough hread => exact not_returned_of_reading hread
  | adopt n token hpc => rw [hpc]; rfl
  | unlink ok hpc => rw [hpc]; rfl
  | writeToken token hpc => rw [hpc]; rfl
  | noToken message hpc => rw [hpc]; rfl
  | noSpawn token hpc => rw [hpc]; rfl
  | spawn hello token hpc => rw [hpc]; rfl
  | answered n token child d hpc => rw [hpc]; rfl
  | giveUp e token child hpc => rw [hpc]; rfl
  | wait token child hpc => rw [hpc]; rfl
  | writePid n token child ok hpc => rw [hpc]; rfl
  | writeMeta n token child nowMs ok hpc => rw [hpc]; rfl

theorem not_lives_of_dead {d : ℕ} (h : w.alive d = false) (x : Daemon) : ¬ w.Lives d x := by
  intro hx
  rw [alive_eq_true.mpr ⟨x, hx⟩] at h
  cases h

theorem answering_eq_false :
    w.answering = false ↔ ∀ d x, w.dir.sock = .bound d → ¬ w.Lives d x := by
  unfold World.answering
  cases hsock : w.dir.sock with
  | bound d =>
    simp only
    constructor
    · rintro hdead d' x ⟨⟩
      exact not_lives_of_dead hdead x
    · intro h
      rw [← Bool.not_eq_true]
      intro halive
      obtain ⟨x, hx⟩ := alive_eq_true.mp halive
      exact h d x rfl hx
  | _ => simp

theorem World.Lives.of_kill {d e : ℕ} {x : Daemon} (h : (w.kill d).Lives e x) : w.Lives e x := by
  obtain ⟨hx, halive⟩ := h
  rw [kill_getElem?] at hx
  split at hx
  · obtain ⟨y, -, rfl⟩ := Option.map_eq_some_iff.mp hx
    cases halive
  · exact ⟨hx, halive⟩

theorem settled_of_not_answering (hup : w.AllUp) (h : w.answering = false) : Settled w :=
  ⟨hup, fun d x _ hsock hx _ => absurd hx (answering_eq_false.mp h d x hsock)⟩

/-! ## Fewer live daemons -/

theorem Settled.fewer (h : Settled w) (hsock : ∀ d, w'.dir.sock = .bound d → w.dir.sock = .bound d)
    (hmeta : w'.dir.metaJson = w.dir.metaJson) (hlives : ∀ d x, w'.Lives d x → w.Lives d x) :
    Settled w' := by
  refine ⟨fun d x hx => h.allUp d x (hlives d x hx), fun d x m hd hx hm => ?_⟩
  rw [World.recordedMode, hmeta] at hm
  exact h.record d x m (hsock d hd) (hlives d x hx) hm

theorem PhaseInv.kill {mode : Option String} {pc : CallPc} (h : PhaseInv w mode pc) (d : ℕ) :
    PhaseInv (w.kill d) mode pc := by
  have hlives : ∀ e x, (w.kill d).Lives e x → w.Lives e x := fun _ _ => World.Lives.of_kill
  have honly : ∀ child, OnlyChild w child mode → OnlyChild (w.kill d) child mode := by
    intro child hchild
    exact ⟨fun e x he hx => hchild.bound e x he (hlives e x hx),
      fun x hx => hchild.mode x (hlives child x hx)⟩
  have hup : w.AllUp → (w.kill d).AllUp := fun hup e x hx => hup e x (hlives e x hx)
  have hquiet : w.answering = false → (w.kill d).answering = false := by
    intro hans
    rw [answering_eq_false] at hans ⊢
    exact fun e x he hx => hans e x he (hlives e x hx)
  have hsettled : Settled w → Settled (w.kill d) := fun hs => hs.fewer (fun _ => id) rfl hlives
  cases pc with
  | writeToken => exact ⟨hup h.1, hquiet h.2⟩
  | spawn token => exact ⟨hup h.1, hquiet h.2⟩
  | poll token child => exact ⟨honly child h.1, fun e x hx => h.2 e x (hlives e x hx)⟩
  | writePid n token child => exact ⟨honly child h.1, hup h.2⟩
  | writeMeta n token child => exact ⟨honly child h.1, hup h.2⟩
  | _ => exact hsettled h

theorem World.WellBound.kill (h : w.WellBound) (d : ℕ) : (w.kill d).WellBound := by
  intro e he
  obtain ⟨x, hx, hup⟩ := h e he
  rw [kill_getElem?, hx]
  split
  · exact ⟨_, rfl, hup⟩
  · exact ⟨x, rfl, hup⟩

/-! ## A daemon comes up -/

section Up

variable {d : ℕ} {x : Daemon}

/-- The world in which daemon `d` has come up and bound the socket. -/
def World.comeUp (w : World) (d : ℕ) : World :=
  { w with
    daemons := w.daemons.modify d fun x => { x with up := true }
    dir.sock := .bound d }

theorem World.Lives.of_comeUp {e : ℕ} {y : Daemon} (h : (w.comeUp d).Lives e y) :
    ∃ z, w.Lives e z ∧ y.permissionMode = z.permissionMode ∧ (z.up = true → y.up = true) := by
  obtain ⟨hy, halive⟩ := h
  simp only [World.comeUp, List.getElem?_modify] at hy
  obtain ⟨z, hz, rfl⟩ := Option.map_eq_some_iff.mp hy
  split at halive
  · next hde => exact ⟨z, ⟨hz, halive⟩, by rw [if_pos hde], fun _ => by rw [if_pos hde]⟩
  · next hde => exact ⟨z, ⟨hz, halive⟩, by rw [if_neg hde], fun hup => by rwa [if_neg hde]⟩

theorem wellBound_comeUp (hx : w.daemons[d]? = some x) : (w.comeUp d).WellBound := by
  rintro e ⟨⟩
  exact ⟨{ x with up := true }, by simp [World.comeUp, hx], rfl⟩

theorem PhaseInv.comeUp {mode : Option String} {pc : CallPc} (h : PhaseInv w mode pc)
    (hx : w.Lives d x) (hup : x.up = false) : PhaseInv (w.comeUp d) mode pc := by
  have hnot : ¬ w.AllUp := by
    intro hall
    rw [hall d x hx] at hup
    cases hup
  cases pc with
  | writeToken => exact absurd h.1 hnot
  | spawn token => exact absurd h.1 hnot
  | poll token child =>
    obtain ⟨honly, hchild⟩ := h
    have hd : d = child := hchild d x hx hup
    refine ⟨⟨?_, ?_⟩, ?_⟩
    · rintro e y ⟨⟩ -
      exact hd
    · intro y hy
      obtain ⟨z, hz, hmode, -⟩ := hy.of_comeUp
      rw [hmode]
      exact honly.mode z hz
    · intro e y hy hyup
      obtain ⟨z, hz, -, hzup⟩ := hy.of_comeUp
      apply hchild e z hz
      rw [← Bool.not_eq_true]
      intro hzt
      rw [hzup hzt] at hyup
      cases hyup
  | writePid n token child => exact absurd h.2 hnot
  | writeMeta n token child => exact absurd h.2 hnot
  | _ => exact absurd (Settled.allUp h) hnot

end Up

/-! ## The steps of a call -/

theorem PhaseInv.spawn {mode : Option String} {token : String} (hbound : w.WellBound)
    (h : PhaseInv w mode (.spawn token)) (hello : HelloResponse) :
    World.WellBound { w with daemons := w.daemons ++ [⟨hello, mode, false, true⟩] } ∧
      PhaseInv { w with daemons := w.daemons ++ [⟨hello, mode, false, true⟩] } mode
        (.poll token w.daemons.length) := by
  obtain ⟨hup, hquiet⟩ := h
  rw [answering_eq_false] at hquiet
  have hlives : ∀ d x, World.Lives
      { w with daemons := w.daemons ++ [⟨hello, mode, false, true⟩] } d x →
      w.Lives d x ∨ d = w.daemons.length ∧ x = ⟨hello, mode, false, true⟩ := by
    rintro d x ⟨hx, halive⟩
    rcases Pool.getElem?_concat_cases hx with hx | ⟨hd, rfl⟩
    · exact Or.inl ⟨hx, halive⟩
    · exact Or.inr ⟨hd, rfl⟩
  refine ⟨?_, ⟨?_, ?_⟩, ?_⟩
  · intro d hd
    obtain ⟨x, hx, hxup⟩ := hbound d hd
    have hlt : d < w.daemons.length := (List.getElem?_eq_some_iff.mp hx).1
    exact ⟨x, by rwa [List.getElem?_append_left hlt], hxup⟩
  · intro d x hd hx
    rcases hlives d x hx with hold | ⟨rfl, -⟩
    · exact absurd hold (hquiet d x hd)
    · rfl
  · intro x hx
    rcases hlives _ x hx with ⟨hold, -⟩ | ⟨-, rfl⟩
    · exact absurd (List.getElem?_eq_some_iff.mp hold).1 (Nat.lt_irrefl _)
    · rfl
  · intro d x hx hxup
    rcases hlives d x hx with hold | ⟨rfl, -⟩
    · rw [hup d x hold] at hxup
      cases hxup
    · rfl

/-- The daemon that answered is the child, so the child has come up. -/
theorem PhaseInv.answered {mode : Option String} {token : String} {child d : ℕ}
    {n : NegotiatedSession} (hbound : w.WellBound) (h : PhaseInv w mode (.poll token child))
    (hsock : w.dir.sock = .bound d) (halive : w.alive d = true) :
    PhaseInv w mode (.writePid n token child) := by
  obtain ⟨honly, hchild⟩ := h
  obtain ⟨y, hy⟩ := alive_eq_true.mp halive
  obtain ⟨z, hz, hzup⟩ := hbound d hsock
  refine ⟨honly, fun e x hx => ?_⟩
  by_contra hup
  have he : e = child := hchild e x hx (Bool.eq_false_of_not_eq_true hup)
  have hd : d = child := honly.bound d y hsock hy
  subst he hd
  rw [hx.1] at hz
  cases hz
  exact hup hzup

theorem PhaseInv.giveUp {mode : Option String} {token : String} {child : ℕ}
    (h : PhaseInv w mode (.poll token child)) (hdead : w.alive child = false) : Settled w := by
  obtain ⟨honly, hchild⟩ := h
  constructor
  · intro d x hx
    by_contra hup
    obtain rfl := hchild d x hx (Bool.eq_false_of_not_eq_true hup)
    exact not_lives_of_dead hdead x hx
  · intro d x m hsock hx
    obtain rfl := honly.bound d x hsock hx
    exact absurd hx (not_lives_of_dead hdead x)

/-- The invariant after a step of a call, whether it has returned or not. -/
theorem PhaseInv.call (hbound : w.WellBound) (h : PhaseInv w c.config.permissionMode c.pc)
    {a : CallAction} (hdead : ∀ child ∈ givesUp w c a, w.alive child = false)
    (hfiles : filesWork w a = true) (hstep : callStep w c a = some (w', c')) :
    w'.WellBound ∧ PhaseInv w' c'.config.permissionMode c'.pc := by
  cases callStep_cases hstep with
  | read pc hread hread' =>
    exact ⟨hbound, (settled_of_reading hread').mpr ((settled_of_reading hread).mp h)⟩
  | unprepared e hread _ => exact ⟨hbound, (settled_of_reading hread).mp h⟩
  | fallThrough hread => exact ⟨hbound, (settled_of_reading hread).mp h⟩
  | adopt n token hpc =>
    rw [hpc] at h
    exact ⟨hbound, h⟩
  | unlink ok hpc ha =>
    rw [hpc] at h
    have hsettled : Settled w := h
    cases ok with
    | true => exact ⟨nofun, hsettled.allUp, rfl⟩
    | false =>
      subst ha
      exact ⟨hbound, hsettled.allUp, by simpa [filesWork] using hfiles⟩
  | writeToken token hpc =>
    rw [hpc] at h
    exact ⟨hbound, h⟩
  | noToken message hpc =>
    rw [hpc] at h
    exact ⟨hbound, settled_of_not_answering h.1 h.2⟩
  | noSpawn token hpc =>
    rw [hpc] at h
    exact ⟨hbound, settled_of_not_answering h.1 h.2⟩
  | spawn hello token hpc =>
    rw [hpc] at h
    exact h.spawn hbound hello
  | answered n token child d hpc hsock halive =>
    rw [hpc] at h
    exact ⟨hbound, h.answered hbound hsock halive⟩
  | giveUp e token child hpc =>
    rw [hpc] at h
    exact ⟨hbound, h.giveUp (hdead child (givesUp_eq_some hpc hstep rfl))⟩
  | wait token child hpc => exact ⟨hbound, h⟩
  | writePid n token child ok hpc _ =>
    rw [hpc] at h
    exact ⟨hbound, ⟨h.1.bound, h.1.mode⟩, h.2⟩
  | writeMeta n token child nowMs ok hpc ha =>
    rw [hpc] at h
    obtain ⟨honly, hup⟩ := h
    cases ok with
    | false =>
      subst ha
      cases hfiles
    | true =>
      refine ⟨hbound, hup, ?_⟩
      intro d x m hsock hx hm
      obtain rfl := honly.bound d x hsock hx
      exact (honly.mode x hx).trans hm

/-! ## Every run of calls, one after another -/

theorem settled_of_returned {mode : Option String} {pc : CallPc} (h : PhaseInv w mode pc)
    (hpc : pc.isReturned = true) : Settled w := by
  cases pc with
  | returned r => exact h
  | _ => cases hpc

/-- While call `i` is the only one that may not have returned, the world follows its phase. -/
theorem ModeInv.of_phase (hbound : w.WellBound) (hc : s.calls[i]? = some c)
    (hphase : PhaseInv w c'.config.permissionMode c'.pc)
    (hothers : ∀ e ∈ s.calls.eraseIdx i, e.pc.isReturned = true) :
    ModeInv ⟨w, s.calls.set i c'⟩ := by
  have hself : (s.calls.set i c')[i]? = some c' := Pool.getElem?_set_self hc
  refine ⟨hbound, ?_, ?_⟩
  · intro hall
    exact settled_of_returned hphase (hall c' (List.mem_of_getElem? hself))
  · intro j e he hpc
    by_cases hji : j = i
    · subst hji
      rw [hself] at he
      cases he
      refine ⟨hphase, fun f hf => hothers f ?_⟩
      rwa [List.eraseIdx_set_eq] at hf
    · simp only [List.getElem?_set_ne (Ne.symm hji)] at he
      rw [hothers e (List.mem_eraseIdx_iff_getElem?.mpr ⟨j, hji, he⟩)] at hpc
      cases hpc

/-- When all calls have returned, the world is settled and every call is the only one that may
not have returned. -/
theorem ModeInv.of_settled (hbound : s.world.WellBound) (hsettled : Settled s.world)
    (hall : ∀ c ∈ s.calls, c.pc.isReturned = true) : ModeInv s := by
  refine ⟨hbound, fun _ => hsettled, ?_⟩
  intro i c hc hpc
  rw [hall c (List.mem_of_getElem? hc)] at hpc
  cases hpc

theorem ModeInv.call (h : ModeInv s) (hc : s.calls[i]? = some c) {a : CallAction}
    (hguard : KeepsRecord s (.call i a)) (hstep : callStep s.world c a = some (w', c')) :
    w'.WellBound ∧ PhaseInv w' c'.config.permissionMode c'.pc ∧
      ∀ e ∈ s.calls.eraseIdx i, e.pc.isReturned = true := by
  have hrunning := (callStep_cases hstep).running
  obtain ⟨hdead, hfiles⟩ := hguard c hc
  obtain ⟨hphase, hothers⟩ := h.phase i c hc hrunning
  obtain ⟨hbound, hphase⟩ := hphase.call h.wellBound hdead hfiles hstep
  exact ⟨hbound, hphase, hothers⟩

theorem shutdown_settled {session session' : Session} {sockOk pidOk tokenOk : Bool}
    (hbound : w.WellBound) (h : Settled w)
    (hshut : session.shutdownDaemon w sockOk pidOk tokenOk = (w', session')) :
    w'.WellBound ∧ Settled w' := by
  have hfiles : ∀ v : World, v.WellBound → Settled v →
      World.WellBound { v with
        dir.sock := if sockOk then .absent else v.dir.sock
        dir.pid := if pidOk then none else v.dir.pid
        dir.token := if tokenOk then none else v.dir.token } ∧
      Settled { v with
        dir.sock := if sockOk then .absent else v.dir.sock
        dir.pid := if pidOk then none else v.dir.pid
        dir.token := if tokenOk then none else v.dir.token } := by
    intro v hv hsettled
    cases sockOk with
    | true => exact ⟨nofun, hsettled.fewer nofun rfl fun _ _ => id⟩
    | false => exact ⟨hv, hsettled.fewer (fun _ => id) rfl fun _ _ => id⟩
  unfold Session.shutdownDaemon at hshut
  cases hshut
  cases session.child with
  | none => exact hfiles w hbound h
  | some child =>
    exact hfiles (w.kill child) (hbound.kill child)
      (h.fewer (fun _ => id) rfl fun _ _ => World.Lives.of_kill)

theorem ModeInv.env {e : EnvAction} (h : ModeInv s) (hstep : s.world.env e = some w') :
    ModeInv { s with world := w' } := by
  rcases env_cases hstep with ⟨d, x, hx, halive, hup, rfl⟩ | ⟨d, rfl⟩
  · refine ⟨wellBound_comeUp hx, ?_, ?_⟩
    · intro hall
      have hxup := (h.idle hall).allUp d x ⟨hx, halive⟩
      rw [hup] at hxup
      cases hxup
    · intro i c hc hpc
      obtain ⟨hphase, hothers⟩ := h.phase i c hc hpc
      exact ⟨hphase.comeUp ⟨hx, halive⟩ hup, hothers⟩
  · refine ⟨h.wellBound.kill d, ?_, ?_⟩
    · intro hall
      exact (h.idle hall).fewer (fun _ => id) rfl fun _ _ => World.Lives.of_kill
    · intro i c hc hpc
      obtain ⟨hphase, hothers⟩ := h.phase i c hc hpc
      exact ⟨hphase.kill d, hothers⟩

theorem ModeInv.step : Machine.Preserves System.step
    (fun s a => OneAfterAnother s a ∧ KeepsRecord s a) ModeInv := by
  rintro s a s' h ⟨horder, hrecord⟩ hstep
  cases a with
  | start config =>
    cases hstep
    have hsettled := h.idle horder
    refine ⟨h.wellBound, fun _ => hsettled, ?_⟩
    intro i c hc hpc
    rcases Pool.getElem?_concat_cases hc with hc | ⟨rfl, rfl⟩
    · rw [horder c (List.mem_of_getElem? hc)] at hpc
      cases hpc
    · refine ⟨hsettled, fun e he => ?_⟩
      rw [List.eraseIdx_append_of_length_le le_rfl, Nat.sub_self] at he
      exact horder e (by simpa using he)
  | call i a =>
    obtain ⟨c, hc, hstep⟩ := Option.bind_eq_some_iff.mp hstep
    obtain ⟨⟨w', c'⟩, hcall, hstep⟩ := Option.bind_eq_some_iff.mp hstep
    cases hstep
    obtain ⟨hbound, hphase, hothers⟩ := h.call hc hrecord hcall
    exact ModeInv.of_phase hbound hc hphase hothers
  | env e =>
    obtain ⟨w', hw, hstep⟩ := Option.bind_eq_some_iff.mp hstep
    cases hstep
    exact h.env hw
  | shutdown i sockOk pidOk tokenOk =>
    obtain ⟨c, hc, hstep⟩ := Option.bind_eq_some_iff.mp hstep
    split at hstep
    · cases hstep
      obtain ⟨hbound, hsettled⟩ := shutdown_settled h.wellBound (h.idle horder) rfl
      exact ModeInv.of_settled hbound hsettled (Pool.forall_mem_set horder rfl)
    · cases hstep

/-- The session a call returns with reports the record, or what it has just recorded. -/
theorem reported_of_returned {session : Session} {m : String} {a : CallAction}
    (hfiles : filesWork w a = true) (hstep : callStep w c a = some (w', c'))
    (hpc : c'.pc = .returned (.ok session)) (hm : session.permissionMode = some m) :
    w'.recordedMode = some m := by
  cases callStep_cases hstep with
  | adopt n token _ =>
    cases hpc
    exact hm
  | read pc _ hread =>
    change pc = _ at hpc
    subst hpc
    cases hread
  | wait token child hpoll =>
    rw [hpoll] at hpc
    cases hpc
  | writeMeta n token child nowMs ok _ ha =>
    cases hpc
    cases ok with
    | true => exact hm
    | false =>
      subst ha
      cases hfiles
  | _ => cases hpc

/-- In every run of calls, shutdowns, crashes and late daemons, one call after another, in which a
start gives up only on a dead child, `meta.json` can be written and the socket of a live daemon
can be unlinked: when a call returns a session with a mode, the daemon on its socket was started
with that mode. -/
theorem reported_mode_real (hdead : w.anyAlive = false) (hbound : w.WellBound) {as : List Action}
    {a : CallAction} (hrun : Machine.run System.step ⟨w, []⟩ (as ++ [.call i a]) = some s)
    (hguard : Machine.Guarded System.step (fun s a => OneAfterAnother s a ∧ KeepsRecord s a)
      ⟨w, []⟩ (as ++ [.call i a])) : ReportsRealMode s i := by
  have hnone : ∀ d x, ¬ w.Lives d x := by
    intro d x hx
    have halive := anyAlive_eq_false hdead d
    rw [alive_eq_true.mpr ⟨x, hx⟩] at halive
    cases halive
  have hinit : ModeInv ⟨w, []⟩ := by
    refine ModeInv.of_settled hbound ⟨?_, ?_⟩ (List.forall_mem_nil _)
    · intro d x hx
      exact absurd hx (hnone d x)
    · intro d x m _ hx
      exact absurd hx (hnone d x)
  obtain ⟨u, hu, hlast⟩ := Machine.run_concat_eq_some.mp hrun
  obtain ⟨hbefore, hafter⟩ := Machine.guarded_append.mp hguard
  have hmode := ModeInv.step.run hinit hbefore hu
  obtain ⟨⟨-, hrecord⟩, -⟩ := hafter u hu
  obtain ⟨c, hc, hlast⟩ := Option.bind_eq_some_iff.mp hlast
  obtain ⟨⟨w', c'⟩, hcall, hlast⟩ := Option.bind_eq_some_iff.mp hlast
  cases hlast
  obtain ⟨-, hphase, -⟩ := hmode.call hc hrecord hcall
  intro e session m d x he hpc hm hsock hx halive
  rw [Pool.getElem?_set_self hc] at he
  cases he
  rw [hpc] at hphase
  have hrecorded := reported_of_returned (hrecord c hc).2 hcall hpc hm
  exact Settled.record hphase d x m hsock ⟨hx, halive⟩ hrecorded

/-- A manual daemon is shut down and an autonomous one spawned, which a third call adopts. -/
def switchAutonomy : List Action :=
  .start (configFor (some "manual")) :: spawnFresh 0 "a1" ++
    [.env (.up 0), .call 0 (.poll .answered none), .call 0 (.writePid true),
      .call 0 (.writeMeta true 0), .shutdown 0 true true true] ++
  .start (configFor (some "autonomous")) :: spawnFresh 1 "b2" ++
    [.env (.up 1), .call 1 (.poll .answered none), .call 1 (.writePid true),
      .call 1 (.writeMeta true 0), .start (configFor none), .call 2 (.prepare true true),
      .call 2 .look, .call 2 (.readPid false), .call 2 .readToken, .call 2 (.hello .answered)]

def coreSession (origin : Origin) (token mode : String) (child : Option ℕ) : Session :=
  ⟨⟨"1.9.0", "0.4.0", []⟩, origin, some token, some mode, child, false⟩

def switchedSystem : System where
  world := ⟨[⟨coreHello, some "manual", true, false⟩, ⟨coreHello, some "autonomous", true, true⟩],
    ⟨.bound 1, some 1, some ⟨"/repo", "0.4.0", "1.9.0", some "autonomous", 0⟩, some "b2"⟩⟩
  calls := [⟨configFor (some "manual"), .returned (.ok (coreSession .spawned "a1" "manual" none)),
      [0]⟩,
    ⟨configFor (some "autonomous"),
      .returned (.ok (coreSession .spawned "b2" "autonomous" (some 1))), [1]⟩,
    ⟨configFor none, .returned (.ok (coreSession .adopted "b2" "autonomous" none)), []⟩]

theorem wellBound_freshWorld : freshWorld.WellBound := by
  rintro d ⟨⟩

theorem reported_mode_real_switched : ReportsRealMode switchedSystem 2 := by
  have hrun : Machine.run System.step ⟨freshWorld, []⟩ (switchAutonomy ++ [.call 2 .readMeta]) =
      some switchedSystem := rfl
  exact reported_mode_real rfl wellBound_freshWorld hrun (by decide)

/-- The manual daemon was shut down, the start of an autonomous one timed out, and the daemon that
came up late is adopted as manual. -/
def lateDaemon : List Action :=
  .start (configFor (some "manual")) :: spawnFresh 0 "a1" ++
    [.env (.up 0), .call 0 (.poll .answered none), .call 0 (.writePid true),
      .call 0 (.writeMeta true 0), .shutdown 0 true true true] ++
  .start (configFor (some "autonomous")) :: spawnFresh 1 "b2" ++
    [.call 1 (.poll (.error "protocol.transport" "no such file") (some 20000)), .env (.up 1),
      .start (configFor none), .call 2 (.prepare true true), .call 2 .look,
      .call 2 (.readPid false), .call 2 .readToken, .call 2 (.hello .answered)]

theorem late_daemon_reported_manual :
    ¬ ∀ (as : List Action) (i : ℕ) (a : CallAction) (s : System),
      Machine.run System.step ⟨freshWorld, []⟩ (as ++ [.call i a]) = some s →
      Machine.Guarded System.step OneAfterAnother ⟨freshWorld, []⟩ (as ++ [.call i a]) →
      ReportsRealMode s i := by
  intro h
  have hmode := h lateDaemon 2 .readMeta _ rfl (by decide) _
    (coreSession .adopted "b2" "manual" none) "manual" 1 _ rfl rfl rfl rfl rfl rfl
  revert hmode
  decide

end ValyriaApp.Bridge
