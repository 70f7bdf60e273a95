import ValyriaApp.Bridge.Supervisor

/-! # One daemon per workspace

Between the look at the run directory and the spawn no lock is held, so two
calls that both find nothing to adopt both spawn, and a call whose `hello` fails
once unlinks the socket of a daemon that lives. Daemons stay unique as long as a
call gives adoption up only while no daemon lives and no other call is on its
way to a spawn.
-/

namespace ValyriaApp.Bridge

variable {w w' : World} {c c' e : Call} {s s' : System} {i : ℕ}

/-- The call has given adoption up and has not yet spawned. -/
def CallPc.clearing : CallPc → Bool
  | .unlink | .writeToken | .spawn _ => true
  | _ => false

/-- The step leaves the call about to unlink the socket. -/
def fallsThrough (w : World) (c : Call) (a : CallAction) : Bool :=
  match callStep w c a with
  | some (_, ⟨_, .unlink, _⟩) => true
  | _ => false

/-- A call gives adoption up only while no daemon lives and no other call is on its way to a
spawn. -/
def GivesUpAlone (s : System) : Action → Prop
  | .call i a => ∀ c ∈ s.calls[i]?, fallsThrough s.world c a = true →
      s.world.anyAlive = false ∧ ∀ e ∈ s.calls.eraseIdx i, e.pc.clearing = false
  | _ => True

instance (s : System) : ∀ a, Decidable (GivesUpAlone s a)
  | .call i a => inferInstanceAs (Decidable (∀ c ∈ s.calls[i]?, fallsThrough s.world c a = true →
      s.world.anyAlive = false ∧ ∀ e ∈ s.calls.eraseIdx i, e.pc.clearing = false))
  | .start _ => isTrue trivial
  | .env _ => isTrue trivial
  | .shutdown .. => isTrue trivial

/-- At most one daemon lives, and no call stands before the unlinking of the socket of a live
daemon that speaks the expected protocol. -/
structure OneDaemon (s : System) : Prop where
  one : ∀ d e, s.world.alive d = true → s.world.alive e = true → d = e
  socket : ∀ c ∈ s.calls, c.pc = .unlink → ∀ d x, s.world.dir.sock = .bound d →
    s.world.daemons[d]? = some x → x.alive = true →
    major x.hello.protocolVersion ≠ major c.config.expectedProtocol

/-- Call `i` has given adoption up and has not yet spawned. -/
def System.clearing (s : System) (i : ℕ) : Prop :=
  Pool.At s.calls i fun c => c.pc.clearing = true

/-- At most one daemon lives or is about to be spawned. -/
structure AloneInv (s : System) : Prop where
  one : ∀ d e, s.world.alive d = true → s.world.alive e = true → d = e
  quiet : ∀ i d, s.clearing i → s.world.alive d = false
  unique : ∀ i j, s.clearing i → s.clearing j → i = j

theorem anyAlive_eq_false (h : w.anyAlive = false) (d : ℕ) : w.alive d = false := by
  rw [← Bool.not_eq_true]
  intro halive
  obtain ⟨x, hx, hxa⟩ := alive_eq_true.mp halive
  have hany : w.anyAlive = true := List.any_eq_true.mpr ⟨x, List.mem_of_getElem? hx, hxa⟩
  rw [h] at hany
  cases hany

theorem AloneInv.oneDaemon (h : AloneInv s) : OneDaemon s where
  one := h.one
  socket c hc hpc d x _ hx halive := by
    obtain ⟨i, hi⟩ := List.mem_iff_getElem?.mp hc
    have hdead := h.quiet i d ⟨c, hi, congrArg CallPc.clearing hpc⟩
    rw [alive_eq_true.mpr ⟨x, hx, halive⟩] at hdead
    cases hdead

/-- No daemon comes to life, and no call sets out for a spawn. -/
theorem AloneInv.mono (h : AloneInv s)
    (halive : ∀ d, s'.world.alive d = true → s.world.alive d = true)
    (hclear : ∀ i, s'.clearing i → s.clearing i) : AloneInv s' := by
  refine ⟨?_, ?_, ?_⟩
  · intro d e hd he
    exact h.one d e (halive d hd) (halive e he)
  · intro i d hi
    rw [← Bool.not_eq_true]
    intro hd
    have hdead := h.quiet i d (hclear i hi)
    rw [halive d hd] at hdead
    cases hdead
  · intro i j hi hj
    exact h.unique i j (hclear i hi) (hclear j hj)

theorem AloneInv.update (h : AloneInv s) (hc : s.calls[i]? = some c)
    (halive : ∀ d, w'.alive d = true → s.world.alive d = true)
    (hclear : c'.pc.clearing = true → c.pc.clearing = true) :
    AloneInv ⟨w', s.calls.set i c'⟩ :=
  h.mono halive fun _ hj => Pool.at_of_at_set hc hclear hj

/-- A call that gives adoption up alone is the only one on its way to a spawn. -/
theorem AloneInv.fallThrough (h : AloneInv s) (hdead : ∀ d, s.world.alive d = false)
    (hothers : ∀ e ∈ s.calls.eraseIdx i, e.pc.clearing = false) :
    AloneInv ⟨s.world, s.calls.set i c'⟩ := by
  have honly : ∀ j, System.clearing ⟨s.world, s.calls.set i c'⟩ j → j = i := by
    intro j hj
    by_contra hji
    obtain ⟨e, he, hpc⟩ := (Pool.at_set_of_ne hji).mp hj
    rw [hothers e (List.mem_eraseIdx_iff_getElem?.mpr ⟨j, hji, he⟩)] at hpc
    cases hpc
  exact ⟨h.one, fun _ d _ => hdead d, fun j k hj hk => (honly j hj).trans (honly k hk).symm⟩

theorem AloneInv.spawn (h : AloneInv s) (hc : s.calls[i]? = some c)
    (hpc : c.pc.clearing = true) (hpc' : c'.pc.clearing = false) (x : Daemon) :
    AloneInv ⟨{ s.world with daemons := s.world.daemons ++ [x] }, s.calls.set i c'⟩ := by
  have hi : s.clearing i := ⟨c, hc, hpc⟩
  have hnew : ∀ d, World.alive { s.world with daemons := s.world.daemons ++ [x] } d = true →
      d = s.world.daemons.length := by
    intro d hd
    obtain ⟨y, hy, hya⟩ := alive_eq_true.mp hd
    rcases Pool.getElem?_concat_cases hy with hy | ⟨rfl, -⟩
    · have hdead := h.quiet i d hi
      rw [alive_eq_true.mpr ⟨y, hy, hya⟩] at hdead
      cases hdead
    · rfl
  have hnone : ∀ j, ¬ System.clearing
      ⟨{ s.world with daemons := s.world.daemons ++ [x] }, s.calls.set i c'⟩ j := by
    intro j hj
    by_cases hji : j = i
    · subst hji
      have := (Pool.at_set_self hc).mp hj
      rw [hpc'] at this
      cases this
    · exact hji (h.unique j i ((Pool.at_set_of_ne hji).mp hj) hi)
  refine ⟨?_, ?_, ?_⟩
  · intro d e hd he
    exact (hnew d hd).trans (hnew e he).symm
  · intro j d hj
    exact absurd hj (hnone j)
  · intro j k hj
    exact absurd hj (hnone j)

theorem not_clearing_of_reading {pc : CallPc} (h : pc.reading = true) : pc.clearing = false := by
  cases pc with
  | unlink => cases h
  | writeToken => cases h
  | spawn token => cases h
  | _ => rfl

theorem AloneInv.call (h : AloneInv s) (hc : s.calls[i]? = some c) {a : CallAction}
    (hguard : fallsThrough s.world c a = true →
      s.world.anyAlive = false ∧ ∀ e ∈ s.calls.eraseIdx i, e.pc.clearing = false)
    (hstep : callStep s.world c a = some (w', c')) : AloneInv ⟨w', s.calls.set i c'⟩ := by
  cases callStep_cases hstep with
  | fallThrough hpc =>
    obtain ⟨hdead, hothers⟩ := hguard (by rw [fallsThrough, hstep])
    exact h.fallThrough (anyAlive_eq_false hdead) hothers
  | spawn hello token hpc => exact h.spawn hc (by rw [hpc]; rfl) rfl _
  | unlink ok hpc _ => exact h.update hc (fun _ hd => hd) fun _ => by rw [hpc]; rfl
  | writeToken token hpc => exact h.update hc (fun _ hd => hd) fun _ => by rw [hpc]; rfl
  | wait token child hpc => exact h.update hc (fun _ hd => hd) id
  | read pc _ hread =>
    refine h.update hc (fun _ hd => hd) fun hclear => ?_
    change pc.clearing = true at hclear
    rw [not_clearing_of_reading hread] at hclear
    cases hclear
  | _ => exact h.update hc (fun _ hd => hd) nofun

theorem alive_of_shutdown {session session' : Session} {sockOk pidOk tokenOk : Bool}
    (h : session.shutdownDaemon w sockOk pidOk tokenOk = (w', session')) {d : ℕ}
    (hd : w'.alive d = true) : w.alive d = true := by
  unfold Session.shutdownDaemon at h
  cases h
  cases hchild : session.child with
  | none =>
    rw [hchild] at hd
    exact hd
  | some child =>
    rw [hchild] at hd
    exact alive_of_kill hd

theorem AloneInv.step : Machine.Preserves System.step GivesUpAlone AloneInv := by
  intro s a s' h hguard hstep
  cases a with
  | start config =>
    cases hstep
    have hnew : ¬ (Call.of config).pc.clearing = true := Bool.false_ne_true
    exact h.mono (fun _ hd => hd) fun _ hj => Pool.at_of_at_append hnew hj
  | call i a =>
    obtain ⟨c, hc, hstep⟩ := Option.bind_eq_some_iff.mp hstep
    obtain ⟨⟨w', c'⟩, hcall, hstep⟩ := Option.bind_eq_some_iff.mp hstep
    cases hstep
    exact h.call hc (hguard c hc) hcall
  | env e =>
    obtain ⟨w', hw, hstep⟩ := Option.bind_eq_some_iff.mp hstep
    cases hstep
    exact h.mono (fun _ hd => alive_of_env hw hd) fun _ hj => hj
  | shutdown i sockOk pidOk tokenOk =>
    obtain ⟨c, hc, hstep⟩ := Option.bind_eq_some_iff.mp hstep
    split at hstep
    · next session hpc =>
      cases hstep
      exact h.update hc (fun _ hd => alive_of_shutdown rfl hd) nofun
    · cases hstep

/-- In every run, from any run directory without a live daemon, in which each call gives adoption
up alone, daemons stay unique and keep their sockets. -/
theorem one_daemon (hw : w.anyAlive = false) {as : List Action}
    (hrun : Machine.run System.step ⟨w, []⟩ as = some s)
    (hguard : Machine.Guarded System.step GivesUpAlone ⟨w, []⟩ as) : OneDaemon s := by
  have hinit : AloneInv ⟨w, []⟩ := by
    refine ⟨?_, ?_, ?_⟩
    · intro d e hd
      rw [anyAlive_eq_false hw d] at hd
      cases hd
    · rintro i d ⟨c, hc, -⟩
      cases hc
    · rintro i j ⟨c, hc, -⟩
      cases hc
  exact (AloneInv.step.run hinit hguard hrun).oneDaemon

/-- The steps of a call that finds no socket, up to its spawn. -/
def spawnFresh (i : ℕ) (token : String) : List Action :=
  [.call i (.prepare true true), .call i .look, .call i (.unlink true),
    .call i (.writeToken token none), .call i (.spawn coreHello true)]

def freshWorld : World where
  daemons := []
  dir := ⟨.absent, none, none, none⟩

/-- One call spawns a daemon that comes up, and a second call adopts it. -/
def spawnThenAdopt : List Action :=
  .start (configFor none) :: spawnFresh 0 "a1" ++
    [.env (.up 0), .call 0 (.poll .answered none), .call 0 (.writePid true),
      .call 0 (.writeMeta true 0), .start (configFor none), .call 1 (.prepare true true),
      .call 1 .look, .call 1 (.readPid false), .call 1 .readToken, .call 1 (.hello .answered)]

def adoptingSystem : System where
  world := ⟨[⟨coreHello, none, true, true⟩],
    ⟨.bound 0, some 0, some ⟨"/repo", "0.4.0", "1.9.0", none, 0⟩, some "a1"⟩⟩
  calls := [⟨configFor none, .returned (.ok ⟨⟨"1.9.0", "0.4.0", []⟩, .spawned, some "a1", none,
      some 0, false⟩), [0]⟩,
    ⟨configFor none, .readMeta ⟨"1.9.0", "0.4.0", []⟩ (some "a1"), []⟩]

theorem one_daemon_adopting : OneDaemon adoptingSystem := by
  have hrun : Machine.run System.step ⟨freshWorld, []⟩ spawnThenAdopt = some adoptingSystem := rfl
  exact one_daemon rfl hrun (by decide)

def Action.isShutdown : Action → Bool
  | .shutdown .. => true
  | _ => false

/-- Two windows find no socket, and both spawn. -/
theorem two_daemons :
    ¬ ∀ (as : List Action) (s : System), (as.all fun a => !a.isShutdown) = true →
      Machine.run System.step ⟨freshWorld, []⟩ as = some s → OneDaemon s := by
  intro h
  let as : List Action := [.start (configFor none), .start (configFor none),
    .call 0 (.prepare true true), .call 0 .look, .call 1 (.prepare true true), .call 1 .look,
    .call 0 (.unlink true), .call 0 (.writeToken "a1" none), .call 0 (.spawn coreHello true),
    .call 1 (.unlink true), .call 1 (.writeToken "b2" none), .call 1 (.spawn coreHello true)]
  have hone := (h as _ rfl rfl).one 0 1 rfl rfl
  cases hone

end ValyriaApp.Bridge
