import Mathlib.Logic.Function.Basic
import ValyriaApp.Bridge.OneDaemon
import ValyriaApp.Lib.Hex
import ValyriaApp.Lib.Utf8

/-! # Workspaces and their run directories

A workspace is known by a 64-bit hash of its canonical root, and everything
that belongs to it hangs off the run directory of that name. Adoption compares
nothing but the name: a daemon serves whatever root has the hash of its own.
-/

namespace ValyriaApp.Bridge
open Lib

/-- The bytes of a path. -/
abbrev OsPath := List UInt8

/-! ## Identifiers -/

def fnvOffset : UInt64 := 0xcbf29ce484222325

def fnvPrime : UInt64 := 0x100000001b3

/-- The hash `fnv1a_hex` renders. -/
def fnv1a (bytes : List UInt8) : UInt64 :=
  bytes.foldl (fun hash b => (hash ^^^ b.toUInt64) * fnvPrime) fnvOffset

@[irreducible] def fnv1aHex (bytes : List UInt8) : List Char := Hex.digits 16 (fnv1a bytes).toNat

theorem length_fnv1aHex (bytes : List UInt8) : (fnv1aHex bytes).length = 16 := by
  rw [fnv1aHex, Hex.length_digits]

theorem isDigit_of_mem_fnv1aHex {bytes : List UInt8} {c : Char} (h : c ∈ fnv1aHex bytes) :
    Hex.IsDigit c := by
  rw [fnv1aHex] at h
  exact Hex.isDigit_of_mem h

theorem fnv1aHex_eq_iff {bytes bytes' : List UInt8} :
    fnv1aHex bytes = fnv1aHex bytes' ↔ fnv1a bytes = fnv1a bytes' := by
  have hlt (hash : UInt64) : hash.toNat < 16 ^ 16 := by
    have hpow : (16 : ℕ) ^ 16 = 2 ^ 64 := by norm_num
    rw [hpow]
    exact hash.toNat_lt
  rw [fnv1aHex, fnv1aHex]
  constructor
  · intro h
    exact UInt64.toNat_inj.mp (Hex.digits_inj (hlt _) (hlt _) h)
  · intro h
    rw [h]

/-- A hash of the canonical root, as 16 lower-case hexadecimal digits. -/
structure WorkspaceId where
  text : List Char
  length_eq : text.length = 16
  isDigit : ∀ c ∈ text, Hex.IsDigit c

/-- `to_string_lossy().as_bytes()`. -/
def lossyBytes (path : OsPath) : List UInt8 :=
  (Utf8.fromUtf8Lossy path).flatMap String.utf8EncodeChar

def fromCanonical (canonical : OsPath) : WorkspaceId where
  text := fnv1aHex (lossyBytes canonical)
  length_eq := length_fnv1aHex _
  isDigit _ := isDigit_of_mem_fnv1aHex

/-! ## Run directories -/

def slash : UInt8 := 47

/-- `PathBuf::join`. -/
def join (path component : OsPath) : OsPath :=
  if component.head? = some slash then component
  else if path = [] ∨ path.getLast? = some slash then path ++ component
  else path ++ slash :: component

/-- `run_dir`, below `$VALYRIA_HOME`. -/
def runDir (home : OsPath) (id : WorkspaceId) : OsPath :=
  join (join home (Utf8.ascii "run".toList)) (Utf8.ascii id.text)

variable {home p q : OsPath}

theorem join_inj {path c c' : OsPath} (hc : c.head? ≠ some slash) (hc' : c'.head? ≠ some slash)
    (h : join path c = join path c') : c = c' := by
  rw [join, join, if_neg hc, if_neg hc'] at h
  split_ifs at h with hpath
  · exact List.append_cancel_left h
  · exact (List.cons.inj (List.append_cancel_left h)).2

theorem ascii_inj {cs cs' : List Char} (h : ∀ c ∈ cs, c.toNat < 128)
    (h' : ∀ c ∈ cs', c.toNat < 128) (heq : Utf8.ascii cs = Utf8.ascii cs') : cs = cs' := by
  rw [← Utf8.fromUtf8Lossy_ascii h, heq, Utf8.fromUtf8Lossy_ascii h']

theorem isAscii_of_isDigit {c : Char} (h : Hex.IsDigit c) :
    c.toNat < 128 ∧ UInt8.ofNat c.toNat ≠ slash := by
  have hall : "0123456789abcdef".toList.all
      fun c => c.toNat < 128 ∧ UInt8.ofNat c.toNat ≠ slash := by decide
  exact of_decide_eq_true (List.all_eq_true.mp hall c h)

theorem WorkspaceId.relative (id : WorkspaceId) :
    (Utf8.ascii id.text).head? ≠ some slash := by
  rw [Utf8.ascii, List.head?_map]
  intro h
  obtain ⟨c, hc, heq⟩ := Option.map_eq_some_iff.mp h
  exact (isAscii_of_isDigit (id.isDigit c (List.mem_of_head? hc))).2 heq

theorem runDir_inj {id id' : WorkspaceId} (h : runDir home id = runDir home id') :
    id.text = id'.text :=
  ascii_inj (fun c hc => (isAscii_of_isDigit (id.isDigit c hc)).1)
    (fun c hc => (isAscii_of_isDigit (id'.isDigit c hc)).1)
    (join_inj id.relative id'.relative h)

theorem runDir_eq_iff : runDir home (fromCanonical p) = runDir home (fromCanonical q) ↔
    fnv1a (lossyBytes p) = fnv1a (lossyBytes q) := by
  rw [← fnv1aHex_eq_iff]
  constructor
  · exact runDir_inj
  · intro h
    have htext : (fromCanonical p).text = (fromCanonical q).text := h
    rw [runDir, runDir, htext]

/-! ## Calls on many workspaces -/

/-- A call of `spawn_or_adopt` with the path `canonicalize` gives for its root. A root that is no
text stops its call before `writeMeta`, in the panic of `json!`. -/
structure RootedCall where
  canonical : OsPath
  call : Call

/-- The processes, the files of each run directory, and the calls. -/
structure Home where
  daemons : List Daemon
  dirs : OsPath → RunDir
  calls : List RootedCall

def Home.fresh (dirs : OsPath → RunDir) : Home where
  daemons := []
  dirs := dirs
  calls := []

inductive HomeAction where
  | start (config : SupervisorConfig) (canonical : OsPath)
  | call (i : ℕ) (a : CallAction)
  | env (dir : OsPath) (e : EnvAction)
  | shutdown (i : ℕ) (sockOk pidOk tokenOk : Bool)

/-- What a call in the run directory sees. -/
def Home.world (s : Home) (dir : OsPath) : World := ⟨s.daemons, s.dirs dir⟩

def Home.put (s : Home) (dir : OsPath) (w : World) : Home :=
  { s with daemons := w.daemons, dirs := Function.update s.dirs dir w.dir }

section Step

variable (home : OsPath)

def RootedCall.dir (c : RootedCall) : OsPath := runDir home (fromCanonical c.canonical)

/-- A daemon binds the socket it was started with. -/
def Home.bindsAt (s : Home) (dir : OsPath) : EnvAction → Bool
  | .up d => s.calls.any fun c => c.call.started.contains d && c.dir home = dir
  | .crash _ => true

def Home.step (s : Home) : HomeAction → Option Home
  | .start config canonical => some { s with calls := s.calls ++ [⟨canonical, .of config⟩] }
  | .call i a => do
    let c ← s.calls[i]?
    let (w, call) ← callStep (s.world (c.dir home)) c.call a
    some { s.put (c.dir home) w with calls := s.calls.set i { c with call } }
  | .env dir e =>
    if s.bindsAt home dir e then ((s.world dir).env e).map (s.put dir) else none
  | .shutdown i sockOk pidOk tokenOk => do
    let c ← s.calls[i]?
    match c.call.pc with
    | .returned (.ok session) =>
      let (w, session) :=
        session.shutdownDaemon (s.world (c.dir home)) sockOk pidOk tokenOk
      some { s.put (c.dir home) w with
        calls := s.calls.set i { c with call := { c.call with pc := .returned (.ok session) } } }
    | _ => none

end Step

/-- A running daemon has accepted the call, or it has returned the adopted session. -/
def Call.adopts (c : Call) : Bool :=
  match c.pc with
  | .readMeta _ _ => true
  | .returned (.ok session) => session.origin = .adopted
  | _ => false

/-- A call for `q` adopts, and its socket leads to a daemon that a call for `p` has started. -/
def Crossed (home p q : OsPath) (s : Home) : Prop :=
  ∃ c ∈ s.calls, ∃ c' ∈ s.calls, c.canonical = p ∧ c'.canonical = q ∧ c'.call.adopts = true ∧
    ∃ d ∈ c.call.started, (s.dirs (c'.dir home)).sock = .bound d

/-! ## What one step keeps -/

section Invariant

variable {s t : Home} {w w' : World} {c c' : Call}

theorem env_up_sock {d : ℕ} (h : w.env (.up d) = some w') : w'.dir.sock = .bound d := by
  obtain ⟨x, -, h⟩ := Option.bind_eq_some_iff.mp h
  split_ifs at h
  cases h
  rfl

theorem shutdown_sock {session : Session} {sockOk pidOk tokenOk : Bool} {d : ℕ}
    (hd : (session.shutdownDaemon w sockOk pidOk tokenOk).1.dir.sock = .bound d) :
    w.dir.sock = .bound d := by
  rw [Session.shutdownDaemon] at hd
  cases sockOk with
  | true => cases hd
  | false => cases hchild : session.child <;> simpa [hchild, World.kill] using hd

/-- A process is started by calls of one run directory, and binds the socket there. -/
structure SocketsOwned (home : OsPath) (s : Home) : Prop where
  started_lt : ∀ c ∈ s.calls, ∀ d ∈ c.call.started, d < s.daemons.length
  bound_lt : ∀ dir d, (s.dirs dir).sock = .bound d → d < s.daemons.length
  same_dir : ∀ c ∈ s.calls, ∀ c' ∈ s.calls, ∀ d ∈ c.call.started, d ∈ c'.call.started →
    c.dir home = c'.dir home
  bound_at : ∀ dir d, (s.dirs dir).sock = .bound d → ∀ c ∈ s.calls, d ∈ c.call.started →
    c.dir home = dir

theorem SocketsOwned.fresh {dirs : OsPath → RunDir} (hfree : ∀ dir d, (dirs dir).sock ≠ .bound d) :
    SocketsOwned home (.fresh dirs) where
  started_lt := List.forall_mem_nil _
  bound_lt dir d hd := absurd hd (hfree dir d)
  same_dir := List.forall_mem_nil _
  bound_at dir d hd := absurd hd (hfree dir d)

/-- No socket is bound, and what is started is new and belongs to one directory. -/
theorem SocketsOwned.mono (h : SocketsOwned home s) (dir : OsPath)
    (hlen : s.daemons.length ≤ t.daemons.length)
    (hsock : ∀ dir d, (t.dirs dir).sock = .bound d → (s.dirs dir).sock = .bound d)
    (hstarted : ∀ c ∈ t.calls, ∀ d ∈ c.call.started,
      (∃ b ∈ s.calls, b.dir home = c.dir home ∧ d ∈ b.call.started) ∨
        d = s.daemons.length ∧ d < t.daemons.length ∧ c.dir home = dir) :
    SocketsOwned home t := by
  refine ⟨?_, ?_, ?_, ?_⟩
  · intro c hc d hd
    rcases hstarted c hc d hd with ⟨b, hb, -, hbd⟩ | ⟨-, hlt, -⟩
    · exact (h.started_lt b hb d hbd).trans_le hlen
    · exact hlt
  · intro dir d hd
    exact (h.bound_lt dir d (hsock dir d hd)).trans_le hlen
  · intro c hc c' hc' d hd hd'
    rcases hstarted c hc d hd with ⟨b, hb, hdir, hbd⟩ | ⟨rfl, -, hdir⟩
    · rcases hstarted c' hc' d hd' with ⟨b', hb', hdir', hbd'⟩ | ⟨rfl, -, -⟩
      · rw [← hdir, ← hdir']
        exact h.same_dir b hb b' hb' d hbd hbd'
      · exact absurd (h.started_lt b hb _ hbd) (lt_irrefl _)
    · rcases hstarted c' hc' _ hd' with ⟨b', hb', -, hbd'⟩ | ⟨-, -, hdir'⟩
      · exact absurd (h.started_lt b' hb' _ hbd') (lt_irrefl _)
      · rw [hdir, hdir']
  · intro dir d hd c hc hcd
    rcases hstarted c hc d hcd with ⟨b, hb, hdir, hbd⟩ | ⟨rfl, -, -⟩
    · rw [← hdir]
      exact h.bound_at dir d (hsock dir d hd) b hb hbd
    · exact absurd (h.bound_lt dir _ (hsock dir _ hd)) (lt_irrefl _)

theorem put_sock_cases {dir dir' : OsPath} {d : ℕ}
    (hd : ((s.put dir w).dirs dir').sock = .bound d) :
    dir' = dir ∧ w.dir.sock = .bound d ∨ (s.dirs dir').sock = .bound d := by
  change (Function.update s.dirs dir w.dir dir').sock = _ at hd
  by_cases hdir : dir' = dir
  · subst hdir
    rw [Function.update_self] at hd
    exact .inl ⟨rfl, hd⟩
  · rw [Function.update_of_ne hdir] at hd
    exact .inr hd

theorem bindsAt_up_iff {dir : OsPath} {d : ℕ} : s.bindsAt home dir (.up d) = true ↔
    ∃ c ∈ s.calls, d ∈ c.call.started ∧ c.dir home = dir := by
  simp [Home.bindsAt]

theorem SocketsOwned.update (h : SocketsOwned home s) {i : ℕ} {c : RootedCall} {call : Call}
    (hc : s.calls[i]? = some c) (hlen : s.daemons.length ≤ w.daemons.length)
    (hsock : ∀ d, w.dir.sock = .bound d → (s.dirs (c.dir home)).sock = .bound d)
    (hstarted : ∀ d ∈ call.started, d ∈ c.call.started ∨
      d = s.daemons.length ∧ d < w.daemons.length) :
    SocketsOwned home
      { s.put (c.dir home) w with calls := s.calls.set i { c with call } } := by
  refine h.mono (c.dir home) hlen ?_ ?_
  · intro dir d hd
    rcases put_sock_cases hd with ⟨rfl, hbound⟩ | hbound
    · exact hsock d hbound
    · exact hbound
  · intro b hb d hd
    rcases List.mem_or_eq_of_mem_set hb with hb | rfl
    · exact .inl ⟨b, hb, rfl, hd⟩
    · rcases hstarted d hd with hd | ⟨rfl, hlt⟩
      · exact .inl ⟨c, List.mem_of_getElem? hc, rfl, hd⟩
      · exact .inr ⟨rfl, hlt, rfl⟩

/-- A daemon that comes up binds the socket of its own directory. -/
theorem SocketsOwned.env (h : SocketsOwned home s) {dir : OsPath} {e : EnvAction}
    (hbinds : s.bindsAt home dir e = true) (hw : (s.world dir).env e = some w) :
    SocketsOwned home (s.put dir w) := by
  have hlen : w.daemons.length = s.daemons.length := env_length hw
  cases e with
  | crash d =>
    cases hw
    refine h.mono dir hlen.ge ?_ fun c hc d hd => .inl ⟨c, hc, rfl, hd⟩
    intro dir' d' hd'
    rcases put_sock_cases hd' with ⟨rfl, hbound⟩ | hbound
    · exact hbound
    · exact hbound
  | up d =>
    obtain ⟨c, hc, hcd, rfl⟩ := bindsAt_up_iff.mp hbinds
    have hbound {dir' : OsPath} {d' : ℕ} (hd' : ((s.put (c.dir home) w).dirs dir').sock = .bound d') :
        dir' = c.dir home ∧ d' = d ∨ (s.dirs dir').sock = .bound d' := by
      refine (put_sock_cases hd').imp_left fun ⟨hdir, hsock⟩ => ⟨hdir, ?_⟩
      rw [env_up_sock hw] at hsock
      exact (Sock.bound.inj hsock).symm
    refine ⟨?_, ?_, h.same_dir, ?_⟩
    · intro b hb d' hd'
      exact (h.started_lt b hb d' hd').trans_eq hlen.symm
    · intro dir' d' hd'
      refine Nat.lt_of_lt_of_eq ?_ hlen.symm
      rcases hbound hd' with ⟨-, rfl⟩ | hold
      · exact h.started_lt c hc d' hcd
      · exact h.bound_lt dir' d' hold
    · intro dir' d' hd' b hb hbd
      rcases hbound hd' with ⟨rfl, rfl⟩ | hold
      · exact h.same_dir b hb c hc d' hbd hcd
      · exact h.bound_at dir' d' hold b hb hbd

theorem SocketsOwned.step ⦃s : Home⦄ ⦃a : HomeAction⦄ ⦃t : Home⦄ (h : SocketsOwned home s)
    (hstep : s.step home a = some t) : SocketsOwned home t := by
  cases a with
  | start config canonical =>
    cases hstep
    refine h.mono home le_rfl (fun _ _ => id) fun c hc d hd => ?_
    rcases List.mem_append.mp hc with hc | hc
    · exact .inl ⟨c, hc, rfl, hd⟩
    · obtain rfl := List.mem_singleton.mp hc
      cases hd
  | call i a =>
    obtain ⟨c, hc, hstep⟩ := Option.bind_eq_some_iff.mp hstep
    obtain ⟨⟨w, call⟩, hcall, hstep⟩ := Option.bind_eq_some_iff.mp hstep
    cases hstep
    have hcases := callStep_cases hcall
    refine h.update hc hcases.daemons.length_le (fun d => hcases.sock) fun d hd => ?_
    rcases hcases.started_cases with ⟨hsame, -⟩ | ⟨hnew, hlen⟩
    · exact .inl (hsame ▸ hd)
    · rw [hnew] at hd
      rcases List.mem_append.mp hd with hd | hd
      · exact .inl hd
      · obtain rfl := List.mem_singleton.mp hd
        exact .inr ⟨rfl, hlen ▸ Nat.lt_succ_self _⟩
  | env dir e =>
    rw [Home.step] at hstep
    split_ifs at hstep with hbinds
    obtain ⟨w, hw, rfl⟩ := Option.map_eq_some_iff.mp hstep
    exact h.env hbinds hw
  | shutdown i sockOk pidOk tokenOk =>
    obtain ⟨c, hc, hstep⟩ := Option.bind_eq_some_iff.mp hstep
    split at hstep
    · next session hpc =>
      cases hstep
      have hlen := length_shutdownDaemon session (s.world (c.dir home)) sockOk pidOk tokenOk
      exact h.update hc hlen.ge (fun d => shutdown_sock) fun d hd => .inl hd
    · cases hstep

end Invariant

/-! ## One run directory -/

/-- What a run directory is to the calls that use it. -/
def Home.system (s : Home) (dir : OsPath) : System := ⟨s.world dir, s.calls.map (·.call)⟩

def HomeAction.single : HomeAction → Action
  | .start config _ => .start config
  | .call i a => .call i a
  | .env _ e => .env e
  | .shutdown i sockOk pidOk tokenOk => .shutdown i sockOk pidOk tokenOk

def HomeAction.InDir (home dir : OsPath) : HomeAction → Prop
  | .start _ canonical => runDir home (fromCanonical canonical) = dir
  | .env dir' _ => dir' = dir
  | _ => True

/-- All calls use one run directory, and have started the processes there are. -/
structure Single (home dir : OsPath) (s : Home) : Prop where
  dir_eq : ∀ c ∈ s.calls, c.dir home = dir
  started : ∀ d < s.daemons.length, ∃ c ∈ s.calls, d ∈ c.call.started

section Single

variable {s t : Home} {dir : OsPath} {a : HomeAction} {u : System}

theorem Single.update (h : Single home dir s) {i : ℕ} {c : RootedCall} {call : Call} {w : World}
    (hc : s.calls[i]? = some c) (hstarted : ∀ d ∈ c.call.started, d ∈ call.started)
    (hnew : ∀ d < w.daemons.length, d < s.daemons.length ∨ d ∈ call.started) :
    Single home dir { s.put dir w with calls := s.calls.set i { c with call } } := by
  refine ⟨?_, ?_⟩
  · intro b hb
    rcases List.mem_or_eq_of_mem_set hb with hb | rfl
    · exact h.dir_eq b hb
    · exact h.dir_eq c (List.mem_of_getElem? hc)
  · intro d hd
    refine (Pool.exists_mem_set_iff hc).mpr ?_
    rcases hnew d hd with hd | hd
    · exact ((Pool.exists_mem_iff hc).mp (h.started d hd)).imp_left (hstarted d)
    · exact .inl hd

theorem Single.call (h : Single home dir s) {i : ℕ} {call : Call}
    (hcall : (s.system dir).calls[i]? = some call) :
    ∃ c, s.calls[i]? = some c ∧ c.dir home = dir ∧ c.call = call := by
  rw [Home.system, List.getElem?_map] at hcall
  obtain ⟨c, hc, heq⟩ := Option.map_eq_some_iff.mp hcall
  exact ⟨c, hc, h.dir_eq c (List.mem_of_getElem? hc), heq⟩

theorem step_call {i : ℕ} {c : RootedCall} {a : CallAction} {w : World} {call : Call}
    (hc : s.calls[i]? = some c) (h : callStep (s.world (c.dir home)) c.call a = some (w, call)) :
    s.step home (.call i a) =
      some { s.put (c.dir home) w with calls := s.calls.set i { c with call } } := by
  simp [Home.step, hc, h]

theorem step_shutdown {i : ℕ} {c : RootedCall} {session : Session} {sockOk pidOk tokenOk : Bool}
    (hc : s.calls[i]? = some c) (hpc : c.call.pc = .returned (.ok session)) :
    s.step home (.shutdown i sockOk pidOk tokenOk) =
      let p := session.shutdownDaemon (s.world (c.dir home)) sockOk pidOk tokenOk
      some { s.put (c.dir home) p.1 with
        calls := s.calls.set i { c with call := { c.call with pc := .returned (.ok p.2) } } } := by
  simp [Home.step, hc, hpc]

theorem system_put (w : World) (calls : List RootedCall) :
    Home.system { s.put dir w with calls } dir = ⟨w, calls.map (·.call)⟩ := by
  rw [Home.system, Home.world]
  change System.mk ⟨w.daemons, Function.update s.dirs dir w.dir dir⟩ _ = _
  rw [Function.update_self]

theorem system_update {i : ℕ} {c : RootedCall} {call : Call} {w : World} :
    Home.system { s.put dir w with calls := s.calls.set i { c with call } } dir =
      ⟨w, (s.calls.map (·.call)).set i call⟩ := by
  rw [system_put, List.map_set]

theorem Single.start (h : Single home dir s) {c : RootedCall} (hdir : c.dir home = dir) :
    Single home dir { s with calls := s.calls ++ [c] } := by
  constructor
  · intro b hb
    rcases List.mem_append.mp hb with hb | hb
    · exact h.dir_eq b hb
    · obtain rfl := List.mem_singleton.mp hb
      exact hdir
  · intro d hd
    obtain ⟨b, hb, hbd⟩ := h.started d hd
    exact ⟨b, List.mem_append_left _ hb, hbd⟩

theorem Single.callStep (h : Single home dir s) {i : ℕ} {c : RootedCall} {a : CallAction}
    {w : World} {call : Call} (hc : s.calls[i]? = some c)
    (hstep : CallStep (s.world dir) c.call a w call) :
    Single home dir { s.put dir w with calls := s.calls.set i { c with call } } := by
  rcases hstep.started_cases with ⟨hsame, hlen⟩ | ⟨hnew, hlen⟩
  · refine h.update hc (fun d hd => hsame ▸ hd) fun d hd => ?_
    exact .inl (hd.trans_eq hlen)
  · refine h.update hc (fun d hd => hnew ▸ List.mem_append_left _ hd) fun d hd => ?_
    rw [hlen] at hd
    rcases Nat.lt_succ_iff_lt_or_eq.mp hd with hd | rfl
    · exact .inl hd
    · exact .inr (hnew ▸ List.mem_concat_self)

theorem Single.bindsAt (h : Single home dir s) {e : EnvAction} {w : World}
    (hw : (s.world dir).env e = some w) : s.bindsAt home dir e = true := by
  cases e with
  | crash d => rfl
  | up d =>
    obtain ⟨x, hx, -⟩ := Option.bind_eq_some_iff.mp hw
    obtain ⟨c, hc, hcd⟩ := h.started d (List.getElem?_eq_some_iff.mp hx).1
    exact bindsAt_up_iff.mpr ⟨c, hc, hcd, h.dir_eq c hc⟩

/-- What calls can do in one run directory they can do with others around it. -/
theorem step_of_single (hs : Single home dir s) (ha : a.InDir home dir)
    (hstep : (s.system dir).step a.single = some u) :
    ∃ t, s.step home a = some t ∧ t.system dir = u ∧ Single home dir t := by
  cases a with
  | start config canonical =>
    cases hstep
    refine ⟨_, rfl, ?_, hs.start ha⟩
    simp [Home.system, Home.world]
  | call i a =>
    obtain ⟨call, hcall, hstep⟩ := Option.bind_eq_some_iff.mp hstep
    obtain ⟨⟨w, call'⟩, hmove, hstep⟩ := Option.bind_eq_some_iff.mp hstep
    cases hstep
    obtain ⟨c, hc, rfl, rfl⟩ := hs.call hcall
    exact ⟨_, step_call hc hmove, system_update, hs.callStep hc (callStep_cases hmove)⟩
  | env dir' e =>
    obtain ⟨w, hw, hstep⟩ := Option.bind_eq_some_iff.mp hstep
    cases hstep
    obtain rfl : dir' = dir := ha
    refine ⟨s.put dir' w, ?_, system_put w s.calls, hs.dir_eq, ?_⟩
    · rw [Home.step, if_pos (hs.bindsAt hw)]
      exact Option.map_eq_some_iff.mpr ⟨w, hw, rfl⟩
    · intro d hd
      exact hs.started d (hd.trans_eq (env_length hw))
  | shutdown i sockOk pidOk tokenOk =>
    obtain ⟨call, hcall, hstep⟩ := Option.bind_eq_some_iff.mp hstep
    obtain ⟨c, hc, rfl, rfl⟩ := hs.call hcall
    split at hstep
    · next session hpc =>
      cases hstep
      have hlen := length_shutdownDaemon session (s.world (c.dir home)) sockOk pidOk tokenOk
      exact ⟨_, step_shutdown hc hpc, system_update,
        hs.update hc (fun _ => id) fun d hd => .inl (hd.trans_eq hlen)⟩
    · cases hstep

theorem run_of_single {as : List HomeAction} (hs : Single home dir s)
    (has : ∀ a ∈ as, a.InDir home dir)
    (hrun : Machine.run System.step (s.system dir) (as.map HomeAction.single) = some u) :
    ∃ t, Machine.run (Home.step home) s as = some t ∧ t.system dir = u := by
  induction as generalizing s with
  | nil => exact ⟨s, rfl, Option.some.inj hrun⟩
  | cons a as ih =>
    obtain ⟨ha, has⟩ := List.forall_mem_cons.mp has
    obtain ⟨v, hv, hrun⟩ := Machine.run_cons_eq_some.mp hrun
    obtain ⟨t, hstep, rfl, ht⟩ := step_of_single hs ha hv
    obtain ⟨t', ht', hu⟩ := ih ht has hrun
    exact ⟨t', Machine.run_cons_eq_some.mpr ⟨t, hstep, ht'⟩, hu⟩

end Single

/-! ## Two roots -/

/-- The path a call is started with. -/
def HomeAction.canonical : HomeAction → Option OsPath
  | .start _ canonical => some canonical
  | _ => none

theorem canonicals_step {s t : Home} {a : HomeAction} (h : s.step home a = some t) :
    t.calls.map (·.canonical) = s.calls.map (·.canonical) ++ a.canonical.toList := by
  have hset {i : ℕ} {c : RootedCall} (call : Call) (hc : s.calls[i]? = some c) :
      (s.calls.set i { c with call }).map (·.canonical) = s.calls.map (·.canonical) := by
    obtain ⟨hi, hget⟩ := List.getElem?_eq_some_iff.mp hc
    have hi' : i < (s.calls.map (·.canonical)).length := by rwa [List.length_map]
    have hmap : (s.calls.map (·.canonical))[i] = c.canonical := by rw [List.getElem_map, hget]
    rw [List.map_set, ← hmap, List.set_getElem_self]
  cases a with
  | start config canonical =>
    cases h
    simp [HomeAction.canonical]
  | call i a =>
    obtain ⟨c, hc, h⟩ := Option.bind_eq_some_iff.mp h
    obtain ⟨⟨w, call⟩, -, h⟩ := Option.bind_eq_some_iff.mp h
    cases h
    simpa [HomeAction.canonical] using hset call hc
  | env dir e =>
    rw [Home.step] at h
    split_ifs at h
    obtain ⟨w, -, rfl⟩ := Option.map_eq_some_iff.mp h
    simp [HomeAction.canonical, Home.put]
  | shutdown i sockOk pidOk tokenOk =>
    obtain ⟨c, hc, h⟩ := Option.bind_eq_some_iff.mp h
    split at h
    · cases h
      exact (hset _ hc).trans (List.append_nil _).symm
    · cases h

theorem canonicals_run {s t : Home} {as : List HomeAction}
    (h : Machine.run (Home.step home) s as = some t) :
    t.calls.map (·.canonical) = s.calls.map (·.canonical) ++ as.filterMap HomeAction.canonical := by
  induction as generalizing s with
  | nil =>
    cases h
    simp
  | cons a as ih =>
    obtain ⟨u, hu, h⟩ := Machine.run_cons_eq_some.mp h
    rw [ih h, canonicals_step hu, List.append_assoc]
    cases ha : a.canonical <;> simp [ha]

/-- A call for `p` spawns a daemon that comes up, and a call for `q` finds it on the socket. -/
def crossing (dir p q : OsPath) : List HomeAction :=
  [.start (configFor none) p, .call 0 (.prepare true true), .call 0 .look, .call 0 (.unlink true),
    .call 0 (.writeToken "a1" none), .call 0 (.spawn coreHello true), .env dir (.up 0),
    .call 0 (.poll .answered none), .call 0 (.writePid true), .call 0 (.writeMeta true 0),
    .start (configFor none) q, .call 1 (.prepare true true), .call 1 .look,
    .call 1 (.readPid false), .call 1 .readToken, .call 1 (.hello .answered), .call 1 .readMeta]

def crossedSystem : System where
  world := adoptingSystem.world
  calls := [⟨configFor none, .returned (.ok ⟨⟨"1.9.0", "0.4.0", []⟩, .spawned, some "a1", none,
      some 0, false⟩), [0]⟩,
    ⟨configFor none, .returned (.ok (adoptedSession adoptingSystem.world ⟨"1.9.0", "0.4.0", []⟩
      (some "a1"))), []⟩]

/-- Two roots with one run directory get in each other's way. -/
theorem crossed_of_dir_eq (h : runDir home (fromCanonical q) = runDir home (fromCanonical p)) :
    ∃ t, Machine.run (Home.step home) (.fresh fun _ => freshWorld.dir)
        (crossing (runDir home (fromCanonical p)) p q) = some t ∧ Crossed home p q t := by
  set dir := runDir home (fromCanonical p) with hdir
  have hsingle : Single home dir (.fresh fun _ => freshWorld.dir) :=
    ⟨List.forall_mem_nil _, fun d hd => absurd hd (Nat.not_lt_zero d)⟩
  have hin : ∀ a ∈ crossing dir p q, a.InDir home dir := by
    simp [crossing, HomeAction.InDir, h, hdir]
  have hsys : Machine.run System.step ⟨freshWorld, []⟩ (spawnThenAdopt ++ [.call 1 .readMeta]) =
      some crossedSystem := rfl
  obtain ⟨t, hrun, hsystem⟩ := run_of_single hsingle hin hsys
  have hcanonical := canonicals_run hrun
  have hcalls : t.calls.map (·.call) = _ := congrArg System.calls hsystem
  have hsock : (t.dirs dir).sock = .bound 0 := congrArg (·.world.dir.sock) hsystem
  obtain ⟨c, c', hc⟩ : ∃ c c', t.calls = [c, c'] := List.length_eq_two.mp (by
    rw [← List.length_map (·.call), hcalls]
    rfl)
  rw [hc] at hcalls hcanonical
  have hp : c.canonical = p := (List.cons.inj hcanonical).1
  have hq : c'.canonical = q := (List.cons.inj (List.cons.inj hcanonical).2).1
  have hcall := (List.cons.inj hcalls).1
  have hcall' := (List.cons.inj (List.cons.inj hcalls).2).1
  dsimp only at hcall hcall'
  refine ⟨t, hrun, c, by simp [hc], c', by simp [hc], hp, hq, ?_, 0, ?_, ?_⟩
  · rw [hcall']
    rfl
  · rw [hcall]
    exact List.mem_singleton_self 0
  · rw [RootedCall.dir, hq, h]
    exact hsock

/-- No call for `q` ever adopts a daemon that a call for `p` has started, exactly when the hashes
differ. -/
theorem adopts_own_iff (home p q : OsPath) :
    (∀ (dirs : OsPath → RunDir) (as : List HomeAction) (t : Home),
      (∀ dir d, (dirs dir).sock ≠ .bound d) →
      Machine.run (Home.step home) (.fresh dirs) as = some t → ¬ Crossed home p q t) ↔
      fnv1a (lossyBytes p) ≠ fnv1a (lossyBytes q) := by
  constructor
  · intro h hsame
    obtain ⟨t, hrun, hcrossed⟩ := crossed_of_dir_eq (runDir_eq_iff.mpr hsame.symm)
    exact h _ _ t (by rintro dir d ⟨⟩) hrun hcrossed
  · rintro hdiffer dirs as t hfree hrun ⟨c, hc, c', hc', rfl, rfl, -, d, hd, hsock⟩
    have howned := Machine.run_invariant SocketsOwned.step (SocketsOwned.fresh hfree) hrun
    have hdir := howned.bound_at _ d hsock c hc hd
    exact hdiffer (runDir_eq_iff.mp hdir)

/-- The paths `/\xff` and `/\xfe` are decoded to one text, and the root of the second gets the
daemon of the first. -/
theorem lossy_roots_share_daemon :
    ¬ ∀ home p q : OsPath, p ≠ q → ∀ (dirs : OsPath → RunDir) (as : List HomeAction) (t : Home),
      (∀ dir d, (dirs dir).sock ≠ .bound d) →
      Machine.run (Home.step home) (.fresh dirs) as = some t → ¬ Crossed home p q t := by
  intro h
  have htext : lossyBytes [slash, 0xFE] = lossyBytes [slash, 0xFF] := by decide
  obtain ⟨t, hrun, hcrossed⟩ := crossed_of_dir_eq (runDir_eq_iff.mpr (congrArg fnv1a htext))
  exact h [slash] [slash, 0xFF] [slash, 0xFE] (by decide) _ _ t (by rintro dir d ⟨⟩) hrun hcrossed

end ValyriaApp.Bridge
