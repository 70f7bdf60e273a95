import Mathlib.Data.Finset.Sort
import Mathlib.Data.List.Lex
import ValyriaApp.Bridge.Search
import ValyriaApp.Lib.Machine

/-! # The workspace watcher

The callback of the file system sends the paths of each event to a thread. The
thread takes one message, collects what else arrives within the debounce window,
and hands over the set of relative paths. Every message belongs to exactly one
such burst, and what is handed over is what the bursts hold, burst by burst.
-/

namespace ValyriaApp.Bridge
open FileTree Lib

/-! ## One burst -/

namespace WorkspaceWatcher

/-- The directories of the repository that change all the time. -/
def churn : List (List Char) := [".git/objects/".toList, ".git/logs/".toList]

/-- What `add_paths` keeps of one path. -/
def changedPath (root path : NamePath) : Option (List Char) :=
  match stripRoot root path with
  | none => none
  | some rel =>
    let rel := relText rel
    if rel.isEmpty then none
    else if churn.any (·.isPrefixOf rel) then none
    else some rel

def addPaths (root : NamePath) (set : Finset (List Char)) (paths : List NamePath) :
    Finset (List Char) :=
  paths.foldl (fun set p => (changedPath root p).elim set (insert · set)) set

/-- What a burst of messages changes. -/
def collect (root : NamePath) (burst : List (List NamePath)) : Finset (List Char) :=
  burst.foldl (addPaths root) ∅

/-- The batch that is handed over for a set, if any. -/
def batchesOf (changed : Finset (List Char)) : List (List (List Char)) :=
  if changed.Nonempty then [changed.sort (· ≤ ·)] else []

end WorkspaceWatcher

/-! ## The thread -/

/-- The debounce window, in milliseconds. -/
def debounce : ℕ := 250

inductive WatchPc where
  | checking
  | receiving (wakeAt : ℕ)
  | collecting (changed : Finset (List Char)) (deadline : ℕ)
  /-- In the `recv_timeout` of a burst, entered before the deadline. -/
  | waiting (changed : Finset (List Char)) (deadline : ℕ)
  | returned

/-- What the burst under way changes so far. -/
def WatchPc.changed : WatchPc → Option (Finset (List Char))
  | .collecting changed _ | .waiting changed _ => some changed
  | _ => none

structure WorkspaceWatcher where
  root : NamePath
  queue : List (List NamePath)
  /-- The sender has not been dropped. -/
  connected : Bool
  stop : Bool
  now : ℕ
  pc : WatchPc
  /-- The batches given to `on_change`. -/
  handed : List (List (List Char))
  /-- All messages that were sent. -/
  sent : List (List NamePath)

inductive WatchAction where
  /-- An event of the file system. -/
  | send (paths : List NamePath)
  | drop
  | disconnect
  | tick (ms : ℕ)
  | check
  | recv
  | wake
  | hangUp
  | wait
  | recvMore
  | flush

namespace WorkspaceWatcher

def start (root : NamePath) : WorkspaceWatcher where
  root := root
  queue := []
  connected := true
  stop := false
  now := 0
  pc := .checking
  handed := []
  sent := []

/-- The end of a burst. -/
def handOver (w : WorkspaceWatcher) (changed : Finset (List Char)) : WorkspaceWatcher :=
  { w with handed := w.handed ++ batchesOf changed, pc := .checking }

/-- `debounce_loop`, beside its sender, its owner and the clock. -/
def step (w : WorkspaceWatcher) : WatchAction → Option WorkspaceWatcher
  | .send paths =>
    if w.connected then some { w with queue := w.queue ++ [paths], sent := w.sent ++ [paths] }
    else none
  | .drop => some { w with stop := true }
  | .disconnect => some { w with connected := false }
  | .tick ms => some { w with now := w.now + ms }
  | .check =>
    match w.pc with
    | .checking => some { w with pc := if w.stop then .returned else .receiving (w.now + 400) }
    | _ => none
  | .recv =>
    match w.pc, w.queue with
    | .receiving _, paths :: queue =>
      some { w with queue, pc := .collecting (addPaths w.root ∅ paths) (w.now + debounce) }
    | _, _ => none
  | .wake =>
    match w.pc, w.queue with
    | .receiving wakeAt, [] => if wakeAt ≤ w.now then some { w with pc := .checking } else none
    | _, _ => none
  | .hangUp =>
    match w.pc, w.queue with
    | .receiving _, [] => if w.connected then none else some { w with pc := .returned }
    | _, _ => none
  | .wait =>
    match w.pc with
    | .collecting changed deadline =>
      if w.now < deadline then some { w with pc := .waiting changed deadline } else none
    | _ => none
  | .recvMore =>
    match w.pc, w.queue with
    | .waiting changed deadline, paths :: queue =>
      some { w with queue, pc := .collecting (addPaths w.root changed paths) deadline }
    | _, _ => none
  | .flush =>
    match w.pc, w.queue with
    | .collecting changed deadline, _ =>
      if deadline ≤ w.now then some (w.handOver changed) else none
    | .waiting changed deadline, [] =>
      if deadline ≤ w.now ∨ w.connected = false then some (w.handOver changed) else none
    | _, _ => none

/-- Every message belongs to one burst: one that was handed over, the one that is collected now, or
it is still in the queue. -/
structure Inv (w : WorkspaceWatcher) (bursts : List (List (List NamePath)))
    (burst : List (List NamePath)) : Prop where
  sent : bursts.flatten ++ (burst ++ w.queue) = w.sent
  nonempty : ∀ b ∈ bursts, b ≠ []
  handed : w.handed = bursts.flatMap fun b => batchesOf (collect w.root b)
  collecting : ∀ changed, w.pc.changed = some changed →
    burst ≠ [] ∧ changed = collect w.root burst
  idle : w.pc.changed = none → burst = []
  returned : w.pc = .returned → w.stop = true ∨ (w.connected = false ∧ w.queue = [])

variable {w w' : WorkspaceWatcher} {bursts : List (List (List NamePath))}
  {burst : List (List NamePath)} {paths : List NamePath} {root : NamePath}

theorem collect_concat (root : NamePath) (burst : List (List NamePath)) (paths : List NamePath) :
    collect root (burst ++ [paths]) = addPaths root (collect root burst) paths :=
  List.foldl_concat ..

theorem mem_addPaths {set : Finset (List Char)} {rel : List Char} :
    rel ∈ addPaths root set paths ↔ rel ∈ set ∨ ∃ p ∈ paths, changedPath root p = some rel := by
  induction paths generalizing set with
  | nil => simp [addPaths]
  | cons p paths ih =>
    have hstep : addPaths root set (p :: paths) =
        addPaths root ((changedPath root p).elim set (insert · set)) paths := rfl
    rw [hstep, ih]
    cases hp : changedPath root p with
    | none => simp [hp]
    | some rel' => simp [hp, or_assoc, or_left_comm, eq_comm]

theorem mem_collect {rel : List Char} :
    rel ∈ collect root burst ↔ ∃ paths ∈ burst, ∃ p ∈ paths, changedPath root p = some rel := by
  induction burst using List.reverseRecOn with
  | nil => simp [collect]
  | append_singleton burst paths ih =>
    rw [collect_concat, mem_addPaths, ih]
    simp [or_and_right, exists_or]

theorem inv_start (root : NamePath) : Inv (start root) [] [] where
  sent := rfl
  nonempty := by simp
  handed := rfl
  collecting := by
    rintro changed ⟨⟩
  idle _ := rfl
  returned := by
    rintro ⟨⟩

/-- A step that moves the thread between its waiting points takes nothing from the queue. -/
theorem Inv.goto (h : Inv w bursts burst) {pc : WatchPc} (hpc : pc.changed = w.pc.changed)
    (hreturned : pc = .returned → w.stop = true ∨ (w.connected = false ∧ w.queue = [])) :
    Inv { w with pc } bursts burst :=
  ⟨h.sent, h.nonempty, h.handed, fun changed heq => h.collecting changed (hpc.symm.trans heq),
    fun hnone => h.idle (hpc.symm.trans hnone), hreturned⟩

theorem Inv.recv (h : Inv w bursts burst) {wakeAt : ℕ} {queue : List (List NamePath)}
    (hpc : w.pc = .receiving wakeAt) (hqueue : w.queue = paths :: queue) (deadline : ℕ) :
    Inv { w with queue, pc := .collecting (addPaths w.root ∅ paths) deadline } bursts [paths] := by
  have hburst : burst = [] := h.idle (by rw [hpc]; rfl)
  refine ⟨?_, h.nonempty, h.handed, ?_, ?_, ?_⟩
  · rw [← h.sent, hburst, hqueue]
    rfl
  · rintro changed ⟨⟩
    exact ⟨by simp, rfl⟩
  · rintro ⟨⟩
  · rintro ⟨⟩

theorem Inv.recvMore (h : Inv w bursts burst) {changed : Finset (List Char)} {deadline : ℕ}
    {queue : List (List NamePath)} (hpc : w.pc.changed = some changed)
    (hqueue : w.queue = paths :: queue) :
    Inv { w with queue, pc := .collecting (addPaths w.root changed paths) deadline } bursts
      (burst ++ [paths]) := by
  obtain ⟨-, rfl⟩ := h.collecting changed hpc
  refine ⟨?_, h.nonempty, h.handed, ?_, ?_, ?_⟩
  · rw [← h.sent, hqueue]
    simp
  · rintro changed ⟨⟩
    exact ⟨by simp, (collect_concat ..).symm⟩
  · rintro ⟨⟩
  · rintro ⟨⟩

theorem Inv.handOver (h : Inv w bursts burst) {changed : Finset (List Char)}
    (hpc : w.pc.changed = some changed) : Inv (w.handOver changed) (bursts ++ [burst]) [] := by
  obtain ⟨hne, rfl⟩ := h.collecting changed hpc
  refine ⟨?_, ?_, ?_, ?_, fun _ => rfl, ?_⟩
  · simp [WorkspaceWatcher.handOver, ← h.sent]
  · simpa [or_imp, forall_and, hne] using h.nonempty
  · simp [WorkspaceWatcher.handOver, h.handed]
  · rintro changed ⟨⟩
  · rintro ⟨⟩

theorem Inv.send (h : Inv w bursts burst) (hconnected : w.connected = true) :
    Inv { w with queue := w.queue ++ [paths], sent := w.sent ++ [paths] } bursts burst := by
  refine ⟨?_, h.nonempty, h.handed, h.collecting, h.idle, fun hpc => ?_⟩
  · rw [← h.sent]
    simp
  · refine (h.returned hpc).imp_right fun ⟨hgone, _⟩ => ?_
    rw [hconnected] at hgone
    cases hgone

/-- The thread returns only when it was told to stop. -/
theorem Inv.check (h : Inv w bursts burst) (hpc : w.pc = .checking) :
    Inv { w with pc := if w.stop then .returned else .receiving (w.now + 400) } bursts burst := by
  refine h.goto ?_ fun hreturned => Or.inl ?_
  · rw [hpc]
    split <;> rfl
  · by_contra hstop
    simp [hstop] at hreturned

/-- A sender that is gone is noticed with an empty queue. -/
theorem Inv.hangUp (h : Inv w bursts burst) {wakeAt : ℕ} (hpc : w.pc = .receiving wakeAt)
    (hqueue : w.queue = []) (hgone : ¬ w.connected = true) :
    Inv { w with pc := .returned } bursts burst :=
  h.goto (by rw [hpc]; rfl) fun _ => Or.inr ⟨Bool.not_eq_true _ ▸ hgone, hqueue⟩

theorem Inv.step_recv (h : Inv w bursts burst) (hstep : w.step .recv = some w') :
    ∃ burst, Inv w' bursts burst := by
  simp only [step] at hstep
  split at hstep
  · next hpc hqueue =>
    cases hstep
    exact ⟨[_], h.recv hpc hqueue _⟩
  · cases hstep

theorem Inv.step_recvMore (h : Inv w bursts burst) (hstep : w.step .recvMore = some w') :
    ∃ burst, Inv w' bursts burst := by
  simp only [step] at hstep
  split at hstep
  · next hpc hqueue =>
    cases hstep
    exact ⟨burst ++ [_], h.recvMore (by rw [hpc]; rfl) hqueue⟩
  · cases hstep

/-- A burst ends at its deadline, before or inside a wait, or when nobody is left to send. -/
theorem Inv.step_flush (h : Inv w bursts burst) (hstep : w.step .flush = some w') :
    Inv w' (bursts ++ [burst]) [] := by
  simp only [step] at hstep
  split at hstep
  · next hpc =>
    obtain ⟨-, hstep⟩ := Option.ite_none_right_eq_some.mp hstep
    cases hstep
    exact h.handOver (by rw [hpc]; rfl)
  · next hpc _ =>
    obtain ⟨-, hstep⟩ := Option.ite_none_right_eq_some.mp hstep
    cases hstep
    exact h.handOver (by rw [hpc]; rfl)
  · cases hstep

theorem step_inv {a : WatchAction} (h : Inv w bursts burst) (hstep : w.step a = some w') :
    ∃ bursts burst, Inv w' bursts burst := by
  cases a with
  | send paths =>
    obtain ⟨hconnected, hstep⟩ := Option.ite_none_right_eq_some.mp hstep
    cases hstep
    exact ⟨bursts, burst, h.send hconnected⟩
  | drop =>
    cases hstep
    exact ⟨bursts, burst, h.sent, h.nonempty, h.handed, h.collecting, h.idle,
      fun _ => Or.inl rfl⟩
  | disconnect =>
    cases hstep
    exact ⟨bursts, burst, h.sent, h.nonempty, h.handed, h.collecting, h.idle,
      fun hpc => (h.returned hpc).imp_right fun ⟨_, hqueue⟩ => ⟨rfl, hqueue⟩⟩
  | tick ms =>
    cases hstep
    exact ⟨bursts, burst, h.sent, h.nonempty, h.handed, h.collecting, h.idle, h.returned⟩
  | recv => exact ⟨bursts, h.step_recv hstep⟩
  | recvMore => exact ⟨bursts, h.step_recvMore hstep⟩
  | flush => exact ⟨_, _, h.step_flush hstep⟩
  | check =>
    simp only [step] at hstep
    split at hstep
    · next hpc =>
      cases hstep
      exact ⟨bursts, burst, h.check hpc⟩
    · cases hstep
  | wake =>
    simp only [step] at hstep
    split at hstep
    · next hpc _ =>
      obtain ⟨-, hstep⟩ := Option.ite_none_right_eq_some.mp hstep
      cases hstep
      exact ⟨bursts, burst, h.goto (by rw [hpc]; rfl) (by simp)⟩
    · cases hstep
  | hangUp =>
    simp only [step] at hstep
    split at hstep
    · next hpc hqueue =>
      obtain ⟨hgone, hstep⟩ := Option.ite_none_left_eq_some.mp hstep
      cases hstep
      exact ⟨bursts, burst, h.hangUp hpc hqueue hgone⟩
    · cases hstep
  | wait =>
    simp only [step] at hstep
    split at hstep
    · next hpc =>
      obtain ⟨-, hstep⟩ := Option.ite_none_right_eq_some.mp hstep
      cases hstep
      exact ⟨bursts, burst, h.goto (by rw [hpc]; rfl) (by simp)⟩
    · cases hstep

/-! ## What is handed over -/

/-- A path as the interface gets it: below the root, with forward slashes, and no churn. -/
structure Shown (root : NamePath) (rel : List Char) : Prop where
  below : ∃ path, path ≠ [] ∧ relText path = rel
  slashes : '\\' ∉ rel
  churn : ∀ dir ∈ churn, ¬ dir <+: rel

/-- The path of an event stands for a file below the root, shown so, that is no churn. -/
structure Changes (root p : NamePath) (rel : List Char) : Prop where
  below : ∃ path, p = root ++ path ∧ rel = relText path
  ne_nil : rel ≠ []
  churn : ∀ dir ∈ churn, ¬ dir <+: rel

theorem changedPath_eq_some {p : NamePath} {rel : List Char} :
    changedPath root p = some rel ↔ Changes root p rel := by
  have hchurn (text : List Char) : ¬ churn.any (·.isPrefixOf text) = true ↔
      ∀ dir ∈ churn, ¬ dir <+: text := by
    simp only [List.any_eq_true, List.isPrefixOf_iff_prefix, not_exists, not_and]
  constructor
  · intro h
    rw [changedPath] at h
    split at h
    · cases h
    · next path hpath =>
      obtain ⟨hne, h⟩ := Option.ite_none_left_eq_some.mp h
      obtain ⟨hplain, h⟩ := Option.ite_none_left_eq_some.mp h
      obtain rfl := Option.some.inj h
      exact ⟨⟨path, (stripRoot_eq_some_iff.mp hpath).symm, rfl⟩,
        fun hnil => hne (List.isEmpty_iff.mpr hnil), (hchurn _).mp hplain⟩
  · rintro ⟨⟨path, rfl, rfl⟩, hne, hplain⟩
    rw [changedPath, stripRoot_eq_some_iff.mpr rfl]
    exact (if_neg fun hnil => hne (List.isEmpty_iff.mp hnil)).trans
      (if_neg ((hchurn _).mpr hplain))

theorem Changes.shown {p : NamePath} {rel : List Char} (h : Changes root p rel) :
    Shown root rel := by
  obtain ⟨⟨path, rfl, rfl⟩, hne, hplain⟩ := h
  refine ⟨⟨path, ?_, rfl⟩, ?_, hplain⟩
  · rintro rfl
    exact hne rfl
  · simp only [relText, List.mem_map, not_exists, not_and]
    intro c _
    split
    · decide
    · next hc => exact hc

theorem mem_collect_iff {rel : List Char} :
    rel ∈ collect root burst ↔ ∃ paths ∈ burst, ∃ p ∈ paths, Changes root p rel := by
  simp only [mem_collect, changedPath_eq_some]

theorem root_of_step {a : WatchAction} (hstep : w.step a = some w') : w'.root = w.root := by
  cases a <;> simp only [step] at hstep
  all_goals
    repeat' split at hstep
    all_goals cases hstep
    all_goals rfl

theorem mem_batchesOf {changed : Finset (List Char)} {batch : List (List Char)} :
    batch ∈ batchesOf changed ↔ changed.Nonempty ∧ batch = changed.sort (· ≤ ·) := by
  rw [batchesOf]
  split <;> simp_all

/-- In every run each message belongs to one burst, in the order they were sent, and the batches
are what the bursts change, burst by burst: all paths of their messages that stand for files below
the root, and no others. A thread that has returned was told to stop, or it has taken every message.
A batch lists its paths in order and once. -/
theorem batches_of_bursts {as : List WatchAction}
    (hrun : Machine.run step (start root) as = some w) :
    ∃ (bursts : List (List (List NamePath))) (burst : List (List NamePath)),
      bursts.flatten ++ (burst ++ w.queue) = w.sent ∧ (∀ b ∈ bursts, b ≠ []) ∧
      w.handed = bursts.flatMap (fun b => batchesOf (collect root b)) ∧
      (∀ b ∈ bursts, ∀ rel, rel ∈ collect root b ↔
        ∃ paths ∈ b, ∃ p ∈ paths, Changes root p rel) ∧
      (w.pc = .returned → burst = [] ∧ (w.stop = true ∨ w.queue = [])) ∧
      ∀ batch ∈ w.handed, batch ≠ [] ∧ batch.SortedLT ∧ ∀ rel ∈ batch, Shown root rel := by
  have hinv : w.root = root ∧ ∃ bursts burst, Inv w bursts burst := by
    refine Machine.run_invariant (I := fun w => w.root = root ∧ ∃ bursts burst, Inv w bursts burst)
      ?_ ⟨rfl, [], [], inv_start root⟩ hrun
    rintro w a w' ⟨hroot, bursts, burst, h⟩ hstep
    exact ⟨(root_of_step hstep).trans hroot, step_inv h hstep⟩
  obtain ⟨rfl, bursts, burst, h⟩ := hinv
  refine ⟨bursts, burst, h.sent, h.nonempty, h.handed, fun b _ rel => mem_collect_iff,
    fun hpc => ⟨?_, ?_⟩, ?_⟩
  · exact h.idle (by rw [hpc]; rfl)
  · exact (h.returned hpc).imp_right And.right
  · intro batch hbatch
    rw [h.handed] at hbatch
    obtain ⟨b, -, hmem⟩ := List.mem_flatMap.mp hbatch
    obtain ⟨⟨rel, hrel⟩, rfl⟩ := mem_batchesOf.mp hmem
    refine ⟨List.ne_nil_of_mem ((Finset.mem_sort _).mpr hrel), Finset.sortedLT_sort _, ?_⟩
    intro rel hrel
    obtain ⟨paths, -, p, -, hp⟩ := mem_collect_iff.mp ((Finset.mem_sort _).mp hrel)
    exact hp.shown

/-- Two events in one window, one of them churn, and a third after the watcher was dropped. -/
def twoInOne : List WatchAction :=
  let git : FileName := ⟨[46, 103, 105, 116], by decide⟩
  let logs : FileName := ⟨[108, 111, 103, 115], by decide⟩
  let b : FileName := ⟨[98], by decide⟩
  [.send [[b]], .check, .recv, .wait, .tick 100, .send [[nameA], [git, logs, nameA]], .recvMore,
    .drop, .send [[b, nameA]], .tick 150, .flush, .check]

def twoInOneReached : WorkspaceWatcher :=
  (Machine.run step (start []) twoInOne).get (by decide +kernel)

theorem batches_of_bursts_twoInOne :
    ∃ (bursts : List (List (List NamePath))) (burst : List (List NamePath)),
      bursts.flatten ++ (burst ++ twoInOneReached.queue) = twoInOneReached.sent ∧
      twoInOneReached.handed = bursts.flatMap (fun b => batchesOf (collect [] b)) ∧
      (∀ b ∈ bursts, ∀ rel, rel ∈ collect [] b ↔ ∃ paths ∈ b, ∃ p ∈ paths, Changes [] p rel) ∧
      ∀ batch ∈ twoInOneReached.handed,
        batch ≠ [] ∧ batch.SortedLT ∧ ∀ rel ∈ batch, Shown [] rel := by
  have hrun : Machine.run step (start []) twoInOne = some twoInOneReached :=
    (Option.some_get _).symm
  obtain ⟨bursts, burst, hsent, -, hhanded, hcollect, -, hbatches⟩ := batches_of_bursts hrun
  exact ⟨bursts, burst, hsent, hhanded, hcollect, hbatches⟩

end WorkspaceWatcher

end ValyriaApp.Bridge
