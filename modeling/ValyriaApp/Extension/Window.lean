import ValyriaApp.Extension.ModelChat
import ValyriaApp.Host.EventStream

/-! # The window

The pumps, the host, the channel and the store run side by side with the chat
that shows the store. When no batch is on its way and nothing is under way in
the chat, its page shows the model of a prefix of the journal.
-/

namespace ValyriaApp
open BridgeHost Mirror

variable {WireEvent : Type}

structure Window (WireEvent : Type) where
  system : System WireEvent
  chat : ModelChat

inductive WindowAction (WireEvent : Type) where
  /-- The listeners of the store get as far as the chat when it is `called`. -/
  | system (a : SystemAction WireEvent) (called : Bool)
  | chat (a : ModelChatAction)

def WindowAction.system? : WindowAction WireEvent → Option (SystemAction WireEvent)
  | .system a _ => some a
  | .chat _ => none

/-- What a step of the system does to the store. -/
def storeChange (s : System WireEvent) : SystemAction WireEvent → Option Store.Change
  | .ingest => s.channel.head?.map .ingestBatch
  | .setConnection state => some (.setConnection state)
  | _ => none

def ModelChatAction.ofStore : ModelChatAction → Bool
  | .scene (.store _) _ => true
  | _ => false

namespace Window

def start : Window WireEvent where
  system := .start 0 .new
  chat := .start

def step (seq : WireEvent → ℕ) (json : WireEvent → Json) (w : Window WireEvent) :
    WindowAction WireEvent → Option (Window WireEvent)
  | .system a called => do
    let system ← w.system.step seq json a
    match storeChange w.system a with
    | none => some { w with system }
    | some change => (w.chat.step (.scene (.store change) called)).map fun chat => { system, chat }
  | .chat a => if a.ofStore then none else (w.chat.step a).map fun chat => { w with chat }

/-- Core serves every subscription gap-free, and no restart overtakes a batch. -/
def Served (seq : WireEvent → ℕ) (journal : List WireEvent) (w : Window WireEvent) :
    WindowAction WireEvent → Prop
  | .system a _ => SystemServed seq journal w.system a
  | .chat _ => True

/-- The chat reads the store of the system, and both keep their invariants. -/
structure Inv (seq : WireEvent → ℕ) (json : WireEvent → Json) (journal : List WireEvent)
    (w : Window WireEvent) : Prop where
  store : w.chat.scene.store = w.system.store
  chat : w.chat.Inv
  system : ∃ b m c, SystemInv seq json journal b m c w.system

variable {seq : WireEvent → ℕ} {json : WireEvent → Json} {journal : List WireEvent}
  {s s' : System WireEvent} {w w' : Window WireEvent} {p : Page ModelChatModel}

/-- The store changes as the listeners are told, an empty batch not at all. -/
theorem store_of_step {a : SystemAction WireEvent} (hstep : s.step seq json a = some s') :
    s'.store =
      (storeChange s a).elim s.store fun change => (s.store.changed change).getD s.store := by
  cases a with
  | pump i a =>
    obtain ⟨p, -, hstep⟩ := Option.bind_eq_some_iff.mp hstep
    obtain ⟨p', -, hstep⟩ := Option.bind_eq_some_iff.mp hstep
    obtain ⟨host, -, hstep⟩ := Option.bind_eq_some_iff.mp hstep
    cases hstep
    rfl
  | host a =>
    simp only [System.step] at hstep
    split at hstep
    · cases hstep
    · obtain ⟨host, -, hstep⟩ := Option.bind_eq_some_iff.mp hstep
      cases hstep
      rfl
  | ingest =>
    simp only [System.step] at hstep
    split at hstep
    · cases hstep
    · next batch channel hchannel =>
      cases hstep
      simp only [storeChange, hchannel, List.head?_cons, Option.map_some, Option.elim_some,
        Store.changed]
      split
      · next hempty => simp [Store.ingestBatch, hempty]
      · rfl
  | setConnection state =>
    cases hstep
    rfl
  | respawn =>
    cases hstep
    rfl

theorem store_of_told {chat chat' : ModelChat} {change : Store.Change} {called : Bool}
    (hstep : chat.step (.scene (.store change) called) = some chat') :
    chat'.scene.store = (chat.scene.store.changed change).getD chat.scene.store := by
  rcases Machine.elim_cases hstep with ⟨hnone, rfl⟩ | ⟨scene, hchanged, rfl⟩
  · rw [Option.map_eq_none_iff.mp hnone, Option.getD_none]
  · obtain ⟨store, hstore, rfl⟩ := Option.map_eq_some_iff.mp hchanged
    rw [ModelChat.scene_sceneChanged, hstore, Option.getD_some]

theorem store_of_chat {chat chat' : ModelChat} {a : ModelChatAction} (ha : a.ofStore = false)
    (hstep : chat.step a = some chat') : chat'.scene.store = chat.scene.store := by
  rcases ModelChat.scene_of_step hstep with hscene | ⟨change, called, rfl, hchanged⟩
  · rw [hscene]
  · cases change with
    | store change => cases ha
    | focus pinned =>
      obtain ⟨-, hscene⟩ := Option.ite_none_left_eq_some.mp hchanged
      rw [← Option.some.inj hscene]
    | supervisor change =>
      obtain ⟨supervisor, -, hscene⟩ := Option.map_eq_some_iff.mp hchanged
      rw [← hscene]

theorem inv_start : Inv seq json journal start where
  store := rfl
  chat := ModelChat.inv_start
  system := ⟨0, 0, 0, systemInv_start (Nat.zero_le _) ⟨emptyStore.connection, rfl⟩ rfl⟩

theorem step_inv (hj : Reassembly.Numbered seq journal) (hjournal : Journal (journal.map json))
    (hlen : journal.length < 2 ^ 64 - 1) :
    Machine.Preserves (step seq json) (Served seq journal) (Inv seq json journal) := by
  rintro w act w' hI hg hstep
  cases act with
  | system a called =>
    obtain ⟨system, hsystem, hstep⟩ := Option.bind_eq_some_iff.mp hstep
    have hinv : ∃ b m c, SystemInv seq json journal b m c system := by
      obtain ⟨b, m, c, hsystemInv⟩ := hI.system
      obtain ⟨b', m', c', -, hnext⟩ :=
        SystemInv.step hj hjournal hlen ⟨b, m, c, le_rfl, hsystemInv⟩ hg hsystem
      exact ⟨b', m', c', hnext⟩
    have hstore := store_of_step hsystem
    cases hchange : storeChange w.system a with
    | none =>
      rw [hchange] at hstep hstore
      cases hstep
      exact ⟨hI.store.trans hstore.symm, hI.chat, hinv⟩
    | some change =>
      rw [hchange] at hstep hstore
      obtain ⟨chat, hchat, rfl⟩ := Option.map_eq_some_iff.mp hstep
      refine ⟨?_, ModelChat.step_inv hI.chat hchat, hinv⟩
      rw [store_of_told hchat, hI.store, hstore, Option.elim_some]
  | chat a =>
    obtain ⟨ha, hstep⟩ := Option.ite_none_left_eq_some.mp hstep
    obtain ⟨chat, hchat, rfl⟩ := Option.map_eq_some_iff.mp hstep
    exact ⟨(store_of_chat (Bool.not_eq_true _ ▸ ha) hchat).trans hI.store,
      ModelChat.step_inv hI.chat hchat, hI.system⟩

/-- However everything interleaves: when the channel is empty and nothing is under way in the chat,
its page shows the model of the journal up to the highest event the host has forwarded, or up to
where the host was asked to go on. -/
theorem chat_shows_prefix (hj : Reassembly.Numbered seq journal)
    (hjournal : Journal (journal.map json)) (hlen : journal.length < 2 ^ 64 - 1)
    {as : List (WindowAction WireEvent)} (hrun : Machine.run (step seq json) start as = some w)
    (hserved : Machine.Guarded (step seq json) (Served seq journal) start as)
    (hrest : w.chat.AtRest p) (hempty : w.system.channel = []) :
    ∃ m connection, w.system.openedFrom ≤ m ∧ m ≤ journal.length ∧
      (∀ k, k ∈ w.system.host.forwarded.map seq ↔ w.system.openedFrom < k ∧ k ≤ m) ∧
      p.shown = some (w.chat.modelOf
        ((replay ((journal.map json).take m)).withConnection connection)) := by
  have hI := (step_inv hj hjournal hlen).run inv_start hserved hrun
  obtain ⟨b, m, c, hsystem⟩ := hI.system
  obtain rfl := hsystem.openedFrom
  obtain rfl : c = m := by
    have hleads := hsystem.channel
    rw [hempty] at hleads
    exact hleads
  obtain ⟨connection, hstate⟩ := hsystem.store
  refine ⟨c, connection, hsystem.le, hsystem.length, hsystem.host.forwarded, ?_⟩
  have hmirrors := hI.chat p hrest.view hrest.refreshes hrest.ready hrest.missed
  rw [hmirrors.shown hrest.settled, ModelChat.buildModel, hI.store, hstate]

theorem guarded_of_system {as : List (WindowAction WireEvent)}
    (h : Machine.Guarded (System.step seq json) (SystemServed seq journal) w.system
      (as.filterMap WindowAction.system?)) :
    Machine.Guarded (step seq json) (Served seq journal) w as := by
  refine Machine.Guarded.lift system WindowAction.system? ?_ ?_ ?_ h
  · rintro w act w' hstep
    cases act with
    | system a called =>
      obtain ⟨system, hsystem, hstep⟩ := Option.bind_eq_some_iff.mp hstep
      refine Or.inr ⟨a, rfl, ?_⟩
      split at hstep
      · cases hstep
        exact hsystem
      · obtain ⟨chat, -, rfl⟩ := Option.map_eq_some_iff.mp hstep
        exact hsystem
    | chat a =>
      obtain ⟨-, hstep⟩ := Option.ite_none_left_eq_some.mp hstep
      obtain ⟨chat, -, rfl⟩ := Option.map_eq_some_iff.mp hstep
      exact Or.inl ⟨rfl, rfl⟩
  · rintro w (_ | _) ⟨⟩
    trivial
  · rintro w (_ | _) a ⟨⟩ hg
    exact hg

/-- The page starts before the session opens; the batches arrive, and everything is delivered. -/
def restingRun : List (WindowAction ℕ) :=
  [.chat .resolve, .chat (.page .load),
    .chat (.scene (.supervisor (.settle (.ok (sessionWith [])))) true), .chat .ready] ++
  overlapRun.map (.system · true) ++ List.replicate 4 (.chat (.page .deliver))

def windowReached : Window ℕ :=
  (Machine.run (step id sampleEvent) start restingRun).get (by decide +kernel)

def pageReached : Page ModelChatModel := windowReached.chat.view.get (by decide +kernel)

theorem restingRun_served : Machine.Guarded (step id sampleEvent) (Served id [1, 2, 3]) start
    restingRun :=
  guarded_of_system (overlapRun_served sampleEvent)

theorem chat_shows_prefix_resting :
    ∃ connection, pageReached.shown = some (windowReached.chat.modelOf
      ((replay sampleJournal).withConnection connection)) := by
  have hnumbered : Reassembly.Numbered id [1, 2, 3] := by decide
  have hjournal : Journal ([1, 2, 3].map sampleEvent) := sampleJournal_journal
  have hrun : Machine.run (step id sampleEvent) start restingRun = some windowReached :=
    (Option.some_get _).symm
  have hsettled : pageReached.Settled :=
    ⟨by decide +kernel, by decide +kernel, List.isEmpty_iff.mp (by decide +kernel)⟩
  have hrest : windowReached.chat.AtRest pageReached :=
    ⟨(Option.some_get _).symm, hsettled, by decide +kernel, by decide +kernel, by decide +kernel⟩
  have hempty : windowReached.system.channel = [] := List.isEmpty_iff.mp (by decide +kernel)
  obtain ⟨m, connection, -, -, hforwarded, hshown⟩ :=
    chat_shows_prefix hnumbered hjournal (by decide) hrun restingRun_served hrest hempty
  obtain rfl : m = 3 := by
    have hlast : 3 ∈ windowReached.system.host.forwarded.map id ∧
      4 ∉ windowReached.system.host.forwarded.map id := by decide +kernel
    have hm := hforwarded 3
    have hm' := hforwarded 4
    simp only [hlast.1, true_iff, hlast.2, false_iff] at hm hm'
    omega
  exact ⟨connection, hshown⟩

end Window

end ValyriaApp
