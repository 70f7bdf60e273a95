import ValyriaApp.Extension.Window
import ValyriaApp.Lib.Split
import ValyriaApp.Protocol.Decimal

/-! # Announcements

After each change of the store the watcher announces the approval that is
waited for, the tasks that have ended and the tests that have failed. What was
announced is remembered in sets of keys, and the rows of the store are gone
through from the first one each time. Beside the event stream this announces
every failed test of the journal once, however the stream breaks.
-/

namespace ValyriaApp
open BridgeHost

/-! ## What is shown -/

/-- The code units of a text. -/
def utf16 (text : String) : List ℕ :=
  text.toList.flatMap fun c =>
    if c.toNat < 0x10000 then [c.toNat]
    else [0xD800 + (c.toNat - 0x10000) / 0x400, 0xDC00 + (c.toNat - 0x10000) % 0x400]

inductive Announcement where
  | approval (prompt : Prompt) (message : String) (buttons : List String)
  | ended (taskId : String) (message : List ℕ)
  | testsFailed (message : String)

def approvalNotice (prompt : Prompt) : Announcement :=
  let payload := prompt.approval.payload
  let high := (strField payload "risk").any (· ∈ ["destructive", "network", "elevated"])
  .approval prompt
    ("Valyria needs approval: " ++ (strField payload "prompt").getD "Approval requested")
    (if high then ["Review", "Deny"] else ["Allow once", "Deny", "Review"])

/-- The notice of a task that has ended, unless it was cancelled. -/
def endNotice (t : TaskProjection) : Option Announcement :=
  let message (text : String) : List ℕ :=
    utf16 ("Valyria: " ++ text ++ " — “") ++ (utf16 (t.objective.getD t.id)).take 60 ++ utf16 "”"
  match t.state with
  | .completed => some (.ended t.id (message "task completed"))
  | .failed => some (.ended t.id (message "task failed"))
  | _ => none

def failureMessage (e : EventRow) : String :=
  "Valyria: " ++ (strField e.payload "summary").getD "tests failed"

def Announcement.taskEnded : Announcement → Option String
  | .ended taskId _ => some taskId
  | _ => none

def Announcement.failure : Announcement → Option String
  | .testsFailed message => some message
  | _ => none

/-! ## The watcher -/

/-- What `watchNotifications` remembers, and what it has shown. -/
structure NotificationWatch where
  lastApprovalSeq : Num
  notifiedTerminal : Finset String
  notifiedTestFail : Finset String
  notices : List Announcement

namespace NotificationWatch

def start : NotificationWatch where
  lastApprovalSeq := .fin (-1)
  notifiedTerminal := ∅
  notifiedTestFail := ∅
  notices := []

def noteApproval (categories : List String) (pinned : Option String) (s : StoreState)
    (w : NotificationWatch) : NotificationWatch :=
  (notificationPrompt s pinned w.lastApprovalSeq).elim w fun prompt =>
    { w with
      lastApprovalSeq := prompt.approval.seq
      notices := w.notices ++
        if "permission_required" ∈ categories ∨ "blocked" ∈ categories then
          [approvalNotice prompt] else [] }

def noteEnd (categories : List String) (w : NotificationWatch) (t : TaskProjection) :
    NotificationWatch :=
  if t.terminal ∧ t.id ∉ w.notifiedTerminal then
    { w with
      notifiedTerminal := insert t.id w.notifiedTerminal
      notices := w.notices ++
        if "completed" ∈ categories then (endNotice t).toList else [] }
  else w

/-- A task that waits is remembered with the tasks that have ended. -/
def noteWait (categories : List String) (w : NotificationWatch) (t : TaskProjection) :
    NotificationWatch :=
  if t.state = .waitingForPermission ∧ "waiting" ∈ categories then
    { w with notifiedTerminal := insert ("wait:" ++ t.id) w.notifiedTerminal }
  else w

def noteTask (categories : List String) (w : NotificationWatch) (t : TaskProjection) :
    NotificationWatch :=
  (w.noteEnd categories t).noteWait categories t

def testKey (e : EventRow) : String := e.taskId.getD "null" ++ ":" ++ e.seq.text

def noteRow (w : NotificationWatch) (e : EventRow) : NotificationWatch :=
  if e.kind = "test_failed" ∧ testKey e ∉ w.notifiedTestFail then
    { w with
      notifiedTestFail := insert (testKey e) w.notifiedTestFail
      notices := w.notices ++ [.testsFailed (failureMessage e)] }
  else w

/-- The listener of the store. -/
def onStoreChange (categories : List String) (pinned : Option String) (s : StoreState)
    (w : NotificationWatch) : NotificationWatch :=
  let w := (tasksByRecency s).foldl (noteTask categories) (w.noteApproval categories pinned s)
  if "tests_failed" ∈ categories then s.events.foldl noteRow w else w

/-! ## What was announced -/

/-- The tasks whose end was announced. -/
def ended (w : NotificationWatch) : List String := w.notices.filterMap Announcement.taskEnded

/-- The failures that were announced. -/
def failed (w : NotificationWatch) : List String := w.notices.filterMap Announcement.failure

/-- Each task was announced once at most, and it is remembered. -/
structure EndsOnce (w : NotificationWatch) : Prop where
  nodup : w.ended.Nodup
  noted : ∀ id ∈ w.ended, id ∈ w.notifiedTerminal

/-- The rows of failed tests. -/
def failures (rows : List EventRow) : List EventRow := rows.filter (·.kind = "test_failed")

/-- The failed tests among the rows were announced, and no others. -/
structure Announces (w : NotificationWatch) (rows : List EventRow) : Prop where
  messages : w.failed = (failures rows).map failureMessage
  noted : ∀ key, key ∈ w.notifiedTestFail ↔ key ∈ (failures rows).map testKey

variable {w w' : NotificationWatch} {categories : List String} {pinned : Option String}
  {s : StoreState} {t : TaskProjection} {e : EventRow} {rows more : List EventRow}

theorem announces_start : Announces start [] :=
  ⟨rfl, by simp [start, failures]⟩

theorem endsOnce_start : EndsOnce start :=
  ⟨List.nodup_nil, by simp [start, ended]⟩

/-- What adds no such notice and forgets nothing. -/
theorem EndsOnce.mono (h : EndsOnce w) (hended : w'.ended = w.ended)
    (hnoted : w.notifiedTerminal ⊆ w'.notifiedTerminal) : EndsOnce w' :=
  ⟨hended ▸ h.nodup, fun id hid => hnoted (h.noted id (hended ▸ hid))⟩

theorem Announces.keep (h : Announces w rows) (hfailed : w'.failed = w.failed)
    (hnoted : w'.notifiedTestFail = w.notifiedTestFail) : Announces w' rows :=
  ⟨hfailed.trans h.messages, fun key => by rw [hnoted, h.noted]⟩

theorem endNotice_cases (t : TaskProjection) :
    endNotice t = none ∨ ∃ message, endNotice t = some (.ended t.id message) := by
  rw [endNotice]
  split
  · exact Or.inr ⟨_, rfl⟩
  · exact Or.inr ⟨_, rfl⟩
  · exact Or.inl rfl

theorem EndsOnce.noteApproval (h : EndsOnce w) (categories : List String)
    (pinned : Option String) (s : StoreState) : EndsOnce (w.noteApproval categories pinned s) := by
  rw [NotificationWatch.noteApproval]
  cases notificationPrompt s pinned w.lastApprovalSeq with
  | none => exact h
  | some prompt =>
    refine h.mono ?_ (Finset.Subset.refl _)
    simp only [ended, Option.elim_some]
    split <;> simp [approvalNotice, Announcement.taskEnded]

theorem Announces.noteApproval (h : Announces w rows) (categories : List String)
    (pinned : Option String) (s : StoreState) :
    Announces (w.noteApproval categories pinned s) rows := by
  rw [NotificationWatch.noteApproval]
  cases notificationPrompt s pinned w.lastApprovalSeq with
  | none => exact h
  | some prompt =>
    refine h.keep ?_ rfl
    simp only [failed, Option.elim_some]
    split <;> simp [approvalNotice, Announcement.failure]

theorem EndsOnce.noteEnd (h : EndsOnce w) (categories : List String) (t : TaskProjection) :
    EndsOnce (w.noteEnd categories t) := by
  rw [NotificationWatch.noteEnd]
  split
  · next hnew =>
    have hmono : EndsOnce { w with notifiedTerminal := insert t.id w.notifiedTerminal } :=
      h.mono rfl (Finset.subset_insert _ _)
    split
    · rcases endNotice_cases t with hnone | ⟨message, hsome⟩
      · simpa [hnone] using hmono
      · have hfresh : t.id ∉ w.ended := fun hmem => hnew.2 (h.noted _ hmem)
        have hended : (w.notices ++ [Announcement.ended t.id message]).filterMap
            Announcement.taskEnded = w.ended.concat t.id := by
          simp [Announcement.taskEnded, ended]
        rw [hsome, Option.toList_some]
        constructor
        · rw [ended, hended]
          exact (List.nodup_concat _ _).mpr ⟨hfresh, h.nodup⟩
        · intro id hid
          rw [ended, hended, List.concat_eq_append] at hid
          rcases List.mem_append.mp hid with hid | hid
          · exact Finset.mem_insert_of_mem (h.noted id hid)
          · obtain rfl := List.mem_singleton.mp hid
            exact Finset.mem_insert_self _ _
    · simpa using hmono
  · exact h

theorem Announces.noteEnd (h : Announces w rows) (categories : List String) (t : TaskProjection) :
    Announces (w.noteEnd categories t) rows := by
  rw [NotificationWatch.noteEnd]
  split
  · refine h.keep ?_ rfl
    rw [failed, failed]
    rcases endNotice_cases t with hnone | ⟨message, hsome⟩
    · simp [hnone]
    · rw [hsome]
      split <;> simp [Announcement.failure]
  · exact h

theorem EndsOnce.noteWait (h : EndsOnce w) (categories : List String) (t : TaskProjection) :
    EndsOnce (w.noteWait categories t) := by
  rw [NotificationWatch.noteWait]
  split
  · exact h.mono rfl (Finset.subset_insert _ _)
  · exact h

theorem Announces.noteWait (h : Announces w rows) (categories : List String) (t : TaskProjection) :
    Announces (w.noteWait categories t) rows := by
  rw [NotificationWatch.noteWait]
  split
  · exact h.keep rfl rfl
  · exact h

theorem EndsOnce.noteTasks (h : EndsOnce w) (categories : List String)
    (tasks : List TaskProjection) : EndsOnce (tasks.foldl (noteTask categories) w) := by
  induction tasks generalizing w with
  | nil => exact h
  | cons t tasks ih => exact ih ((h.noteEnd categories t).noteWait categories t)

theorem Announces.noteTasks (h : Announces w rows) (categories : List String)
    (tasks : List TaskProjection) : Announces (tasks.foldl (noteTask categories) w) rows := by
  induction tasks generalizing w with
  | nil => exact h
  | cons t tasks ih => exact ih ((h.noteEnd categories t).noteWait categories t)

theorem EndsOnce.noteRows (h : EndsOnce w) (rows : List EventRow) :
    EndsOnce (rows.foldl noteRow w) := by
  induction rows generalizing w with
  | nil => exact h
  | cons e rows ih =>
    apply ih
    rw [noteRow]
    split
    · exact h.mono (by simp [Announcement.taskEnded, ended]) (Finset.Subset.refl _)
    · exact h

theorem noteRows_seen (h : ∀ e ∈ failures rows, testKey e ∈ w.notifiedTestFail) :
    rows.foldl noteRow w = w := by
  induction rows with
  | nil => rfl
  | cons e rows ih =>
    have hrow : noteRow w e = w := by
      rw [noteRow]
      refine if_neg ?_
      rintro ⟨hkind, hnew⟩
      exact hnew (h e (by simp [failures, hkind]))
    rw [List.foldl_cons, hrow]
    apply ih
    intro e' he'
    obtain ⟨hmem, hkind⟩ := List.mem_filter.mp he'
    exact h e' (List.mem_filter.mpr ⟨List.mem_cons_of_mem _ hmem, hkind⟩)

theorem Announces.noteRow (h : Announces w rows)
    (hfresh : testKey e ∉ (failures rows).map testKey) : Announces (w.noteRow e) (rows ++ [e]) := by
  rw [NotificationWatch.noteRow]
  by_cases hkind : e.kind = "test_failed"
  · have hnew : testKey e ∉ w.notifiedTestFail := (h.noted _).not.mpr hfresh
    have hfailures : failures (rows ++ [e]) = failures rows ++ [e] := by simp [failures, hkind]
    rw [if_pos ⟨hkind, hnew⟩]
    constructor
    · have hfailed := h.messages
      rw [failed] at hfailed ⊢
      simp [hfailures, hfailed, Announcement.failure]
    · intro key
      rw [Finset.mem_insert, h.noted, hfailures, List.map_append, List.mem_append, or_comm]
      simp
  · have hfailures : failures (rows ++ [e]) = failures rows := by simp [failures, hkind]
    rw [if_neg fun hboth => hkind hboth.1]
    exact ⟨hfailures ▸ h.messages, fun key => hfailures ▸ h.noted key⟩

/-- Going through all rows announces the failed tests among the new ones. -/
theorem Announces.noteRows (h : Announces w rows) (hnodup : ((rows ++ more).map testKey).Nodup) :
    Announces ((rows ++ more).foldl NotificationWatch.noteRow w) (rows ++ more) := by
  rw [List.foldl_append, noteRows_seen fun e he => (h.noted _).mpr (List.mem_map_of_mem he)]
  induction more generalizing w rows with
  | nil => simpa using h
  | cons e more ih =>
    have happend : rows ++ e :: more = (rows ++ [e]) ++ more := by simp
    rw [happend] at hnodup ⊢
    refine ih (h.noteRow ?_) hnodup
    have hfresh : ((rows ++ [e]).map testKey).Nodup := by
      rw [List.map_append] at hnodup
      exact hnodup.of_append_left
    rw [List.map_append, List.map_singleton, ← List.concat_eq_append, List.nodup_concat] at hfresh
    intro hmem
    exact hfresh.1 ((List.filter_sublist.map testKey).subset hmem)

theorem EndsOnce.onStoreChange (h : EndsOnce w) (categories : List String)
    (pinned : Option String) (s : StoreState) :
    EndsOnce (w.onStoreChange categories pinned s) := by
  have hended := (h.noteApproval categories pinned s).noteTasks categories (tasksByRecency s)
  rw [NotificationWatch.onStoreChange]
  split
  · exact hended.noteRows _
  · exact hended

theorem Announces.onStoreChange (h : Announces w rows) (categories : List String)
    (pinned : Option String) (hrows : rows <+: s.events)
    (hnodup : (s.events.map testKey).Nodup) :
    ∃ rows', rows' <+: s.events ∧ Announces (w.onStoreChange categories pinned s) rows' ∧
      ("tests_failed" ∈ categories → rows' = s.events) := by
  have hended := (h.noteApproval categories pinned s).noteTasks categories (tasksByRecency s)
  rw [NotificationWatch.onStoreChange]
  split
  · obtain ⟨more, hevents⟩ := hrows
    rw [← hevents] at hnodup ⊢
    exact ⟨rows ++ more, List.prefix_rfl, hended.noteRows hnodup, fun _ => rfl⟩
  · next hdisabled => exact ⟨rows, hrows, hended, fun h => absurd h hdisabled⟩

/-! ## The keys of a journal -/

def rowsOf (journal : List Json) : List EventRow := journal.map fun raw => rowOf (decodeEvent raw)

/-- A task id may hold the separator, a number does not. -/
theorem testKey_inj {a b : EventRow} {n m : ℕ} (ha : a.seq = (n : Num)) (hb : b.seq = (m : Num))
    (hn : 0 < n) (hn' : n < 2 ^ 53) (hm : 0 < m) (hm' : m < 2 ^ 53)
    (h : testKey a = testKey b) : n = m := by
  have hsep {k : ℕ} (hk : 0 < k) (hk' : k < 2 ^ 53) : ':' ∉ (k : Num).text.toList := by
    intro hmem
    exact absurd (Num.isDigit_text hk hk' hmem) (by decide)
  have hkey (e : EventRow) :
      (testKey e).toList = (e.taskId.getD "null").toList ++ ':' :: e.seq.text.toList := by
    simp [testKey]
  have htoList := congrArg String.toList h
  rw [hkey, hkey, ha, hb] at htoList
  have htext := Lib.suffix_inj (hsep hn hn') (hsep hm hm') htoList
  exact Num.text_natCast_inj hn hn' hm hm' (String.toList_injective htext)

theorem nodup_testKey {journal : List Json} (hj : Journal journal)
    (hlen : journal.length < 2 ^ 53) : ((rowsOf journal).map testKey).Nodup := by
  have hseq (i : ℕ) (hi : i < journal.length) :
      (rowOf (decodeEvent journal[i])).seq = ((i + 1 : ℕ) : Num) := by
    rw [rowOf_seq]
    exact (hj.carriesSeq hi).decodeEvent_seq
  rw [rowsOf, List.map_map, List.Nodup, List.pairwise_iff_getElem]
  intro i j hi hj' hij heq
  rw [List.length_map] at hi hj'
  simp only [List.getElem_map, Function.comp_apply] at heq
  have hnumber := testKey_inj (hseq i hi) (hseq j hj') (Nat.succ_pos i) (by omega)
    (Nat.succ_pos j) (by omega) heq
  omega

end NotificationWatch

theorem Journal.take {journal : List Json} (hj : Journal journal) (c : ℕ) :
    Journal (journal.take c) := by
  have hsplit : Journal (journal.take c ++ journal.drop c) := by
    rwa [List.take_append_drop]
  exact hsplit.of_append

/-! ## Beside the event stream -/

open NotificationWatch

variable {WireEvent : Type}

structure Lookout (WireEvent : Type) where
  system : System WireEvent
  pinned : Option String
  /-- The categories of notifications that are enabled. -/
  categories : List String
  watch : NotificationWatch
  /-- A listener called before the watcher threw at the last change of the store, or failed tests
  were not announced then. -/
  missed : Bool

inductive LookoutAction (WireEvent : Type) where
  /-- The watcher is `called` unless a listener before it throws. -/
  | system (a : SystemAction WireEvent) (called : Bool)
  | focus (pinned : Option String)
  | configure (categories : List String)

def LookoutAction.system? : LookoutAction WireEvent → Option (SystemAction WireEvent)
  | .system a _ => some a
  | _ => none

namespace Lookout

def start : Lookout WireEvent where
  system := .start 0 .new
  pinned := none
  categories := []
  watch := .start
  missed := false

/-- The store has changed. -/
def storeChanged (w : Lookout WireEvent) (called : Bool) (store : Store) : Lookout WireEvent :=
  if called then
    { w with
      watch := w.watch.onStoreChange w.categories w.pinned store.state
      missed := decide ("tests_failed" ∉ w.categories) }
  else { w with missed := true }

def step (seq : WireEvent → ℕ) (json : WireEvent → Json) (w : Lookout WireEvent) :
    LookoutAction WireEvent → Option (Lookout WireEvent)
  | .system a called => (w.system.step seq json a).map fun system =>
    ((storeChange w.system a).bind w.system.store.changed).elim { w with system } fun store =>
      { w with system }.storeChanged called store
  | .focus pinned => some { w with pinned }
  | .configure categories => some { w with categories }

/-- Core serves every subscription gap-free, and no restart overtakes a batch. -/
def Served (seq : WireEvent → ℕ) (journal : List WireEvent) (w : Lookout WireEvent) :
    LookoutAction WireEvent → Prop
  | .system a _ => SystemServed seq journal w.system a
  | _ => True

/-- Of the rows in the store the watcher has gone through a prefix, and through all of them unless
it missed the last change. -/
structure Inv (seq : WireEvent → ℕ) (json : WireEvent → Json) (journal : List WireEvent)
    (w : Lookout WireEvent) : Prop where
  system : ∃ b m c, SystemInv seq json journal b m c w.system
  ends : w.watch.EndsOnce
  announced : ∃ rows, rows <+: w.system.store.state.events ∧ w.watch.Announces rows ∧
    (w.missed = false → rows = w.system.store.state.events)

variable {seq : WireEvent → ℕ} {json : WireEvent → Json} {journal : List WireEvent}
  {s s' : System WireEvent} {w w' : Lookout WireEvent}

theorem events_of_holds {store : Store} {journal : List Json} {c : ℕ} (hj : Journal journal)
    (h : Holds store journal c) : store.state.events = rowsOf (journal.take c) := by
  obtain ⟨connection, hstate⟩ := h
  have hevents := (hj.take c).events_eq
  rw [← replay_eq_foldl] at hevents
  rw [hstate]
  exact hevents

/-- A change of the store that is no reset adds rows. -/
theorem events_extended {store store' : Store} {change : Store.Change}
    (hchange : change ≠ .reset) (h : store.changed change = some store') :
    store.state.events <+: store'.state.events := by
  cases change with
  | ingestBatch batch =>
    obtain ⟨-, h⟩ := Option.ite_none_left_eq_some.mp h
    cases h
    rw [Store.ingestBatch_state, applyBatch_eq_foldl, events_foldl_applyRawEvent]
    exact List.prefix_append _ _
  | reset => exact absurd rfl hchange
  | setConnection state =>
    cases h
    rw [Store.setConnection_state, setConnection_eq]
    exact List.prefix_rfl

theorem storeChange_ne_reset {a : SystemAction WireEvent} {change : Store.Change}
    (h : storeChange s a = some change) : change ≠ .reset := by
  rintro rfl
  cases a with
  | ingest =>
    obtain ⟨batch, -, hbatch⟩ := Option.map_eq_some_iff.mp h
    cases hbatch
  | _ => cases h

theorem inv_start : Inv seq json journal start where
  system := ⟨0, 0, 0, systemInv_start (Nat.zero_le _) ⟨emptyStore.connection, rfl⟩ rfl⟩
  ends := endsOnce_start
  announced := ⟨[], List.nil_prefix, announces_start, fun _ => rfl⟩

/-- The store after a step is the one the listeners are told of, if they are told. -/
theorem store_of_step {a : SystemAction WireEvent} (hstep : s.step seq json a = some s') :
    s'.store = ((storeChange s a).bind s.store.changed).getD s.store := by
  rw [Window.store_of_step hstep]
  cases storeChange s a with
  | none => rfl
  | some change => rfl

theorem Inv.storeChanged {store : Store} (h : Inv seq json journal w) (called : Bool)
    {system : System WireEvent} (hstore : system.store = store)
    (hsystem : ∃ b m c, SystemInv seq json journal b m c system)
    (hmore : w.system.store.state.events <+: store.state.events)
    (hnodup : (store.state.events.map testKey).Nodup) :
    Inv seq json journal ({ w with system }.storeChanged called store) := by
  obtain ⟨rows, hrows, hannounces, -⟩ := h.announced
  rw [Lookout.storeChanged]
  split
  · obtain ⟨rows', hrows', hannounces', hall⟩ :=
      hannounces.onStoreChange w.categories w.pinned (hrows.trans hmore) hnodup
    refine ⟨hsystem, h.ends.onStoreChange .., rows', hstore ▸ hrows', hannounces',
      fun hheard => ?_⟩
    rw [hstore]
    exact hall (by simpa using hheard)
  · exact ⟨hsystem, h.ends, rows, hstore ▸ hrows.trans hmore, hannounces, by rintro ⟨⟩⟩

theorem step_inv (hj : Reassembly.Numbered seq journal) (hjournal : Journal (journal.map json))
    (hlen : journal.length < 2 ^ 53) :
    Machine.Preserves (step seq json) (Served seq journal) (Inv seq json journal) := by
  rintro w act w' hI hg hstep
  cases act with
  | system a called =>
    obtain ⟨system, hsystem, rfl⟩ := Option.map_eq_some_iff.mp hstep
    have hinv : ∃ b m c, SystemInv seq json journal b m c system := by
      obtain ⟨b, m, c, hsystemInv⟩ := hI.system
      obtain ⟨b', m', c', -, hnext⟩ :=
        SystemInv.step hj hjournal (by omega) ⟨b, m, c, le_rfl, hsystemInv⟩ hg hsystem
      exact ⟨b', m', c', hnext⟩
    have hstore := store_of_step hsystem
    cases hchanged : (storeChange w.system a).bind w.system.store.changed with
    | none =>
      rw [hchanged, Option.getD_none] at hstore
      exact ⟨hinv, hI.ends, hstore ▸ hI.announced⟩
    | some store =>
      rw [hchanged, Option.getD_some] at hstore
      obtain ⟨change, hchange, hchanged⟩ := Option.bind_eq_some_iff.mp hchanged
      refine hI.storeChanged called hstore hinv
        (events_extended (storeChange_ne_reset hchange) hchanged) ?_
      obtain ⟨b, m, c, hsystemInv⟩ := hinv
      have hlength : ((journal.map json).take c).length < 2 ^ 53 := by
        rw [List.length_take, List.length_map]
        omega
      rw [← hstore, events_of_holds hjournal hsystemInv.store]
      exact nodup_testKey (hjournal.take c) hlength
  | focus pinned =>
    cases hstep
    exact ⟨hI.system, hI.ends, hI.announced⟩
  | configure categories =>
    cases hstep
    exact ⟨hI.system, hI.ends, hI.announced⟩

/-- However the pumps, the supervise tasks, the restarts and the requests interleave, the streams
break and hosts die, and whatever categories are enabled when: the failed tests that were announced
are those of a prefix of the journal, each once and in order, and the prefix is the one the store
holds unless the watcher missed the last change. No task is announced to have ended twice. -/
theorem failed_tests_announced_once (hj : Reassembly.Numbered seq journal)
    (hjournal : Journal (journal.map json)) (hlen : journal.length < 2 ^ 53)
    {as : List (LookoutAction WireEvent)} (hrun : Machine.run (step seq json) start as = some w)
    (hserved : Machine.Guarded (step seq json) (Served seq journal) start as) :
    ∃ m c n, n ≤ c ∧ c ≤ m ∧ m ≤ journal.length ∧
      (∀ k, k ∈ w.system.host.forwarded.map seq ↔ w.system.openedFrom < k ∧ k ≤ m) ∧
      (w.system.channel = [] → c = m) ∧ (w.missed = false → n = c) ∧
      Holds w.system.store (journal.map json) c ∧
      w.watch.failed =
        (failures (rowsOf ((journal.map json).take n))).map failureMessage ∧
      w.watch.ended.Nodup := by
  have hI := (step_inv hj hjournal hlen).run inv_start hserved hrun
  obtain ⟨b, m, c, hsystem⟩ := hI.system
  obtain rfl := hsystem.openedFrom
  obtain ⟨rows, hrows, hannounces, hall⟩ := hI.announced
  rw [events_of_holds hjournal hsystem.store] at hrows hall
  have hc : (rowsOf ((journal.map json).take c)).length = c := by
    have hle := hsystem.length
    simp [rowsOf, hle]
  have hn : rows.length ≤ c := hc ▸ hrows.length_le
  have hseen : rows = rowsOf ((journal.map json).take rows.length) := by
    have htake := List.prefix_iff_eq_take.mp hrows
    rw [rowsOf, ← List.map_take, List.take_take, Nat.min_eq_left hn] at htake
    exact htake
  refine ⟨m, c, rows.length, hn, hsystem.channel.le, hsystem.host.length,
    hsystem.host.forwarded, fun hempty => ?_, fun hheard => ?_, hsystem.store, ?_,
    hI.ends.nodup⟩
  · have hleads := hsystem.channel
    rw [hempty] at hleads
    exact hleads
  · rw [hall hheard, hc]
  · rw [← hseen]
    exact hannounces.messages

theorem guarded_of_system {as : List (LookoutAction WireEvent)}
    (h : Machine.Guarded (System.step seq json) (SystemServed seq journal) w.system
      (as.filterMap LookoutAction.system?)) :
    Machine.Guarded (step seq json) (Served seq journal) w as := by
  refine Machine.Guarded.lift system LookoutAction.system? ?_ ?_ ?_ h
  · rintro w act w' hstep
    cases act with
    | system a called =>
      obtain ⟨system, hsystem, rfl⟩ := Option.map_eq_some_iff.mp hstep
      refine Or.inr ⟨a, rfl, hsystem.trans (congrArg some ?_)⟩
      cases (storeChange w.system a).bind w.system.store.changed with
      | none => rfl
      | some store => cases called <;> rfl
    | focus pinned =>
      cases hstep
      exact Or.inl ⟨rfl, rfl⟩
    | configure categories =>
      cases hstep
      exact Or.inl ⟨rfl, rfl⟩
  · rintro w (_ | _ | _) ⟨⟩ <;> trivial
  · rintro w (_ | _ | _) a ⟨⟩ hg
    exact hg

/-- Two failed tests, one of a task whose id holds the separator of the keys. -/
def failingJournal : List Json :=
  [coreEvent 1 "t" 10 "test_failed" (.obj [("summary", .str "two of nine")]),
    coreEvent 2 "t:1" 20 "test_failed" (.obj []), coreEvent 3 "t" 30 "task_completed" (.obj [])]

def failingEvent (k : ℕ) : Json := failingJournal.getD (k - 1) .null

theorem failingJournal_journal : Journal failingJournal := by
  intro i hi
  match i, hi with
  | 0, _ => exact carriesSafeSeq_coreEvent (by norm_num) (by norm_num) ..
  | 1, _ => exact carriesSafeSeq_coreEvent (by norm_num) (by norm_num) ..
  | 2, _ => exact carriesSafeSeq_coreEvent (by norm_num) (by norm_num) ..

/-- The events come twice, from two sessions; the category is enabled after the first batch. -/
def failingTwice : List (LookoutAction ℕ) :=
  overlapRun.take 18 |>.map (.system · true) |>.append
    (.configure ["tests_failed"] :: (overlapRun.drop 18).map (.system · true))

def lookoutReached : Lookout ℕ :=
  (Machine.run (step id failingEvent) start failingTwice).get (by decide +kernel)

theorem failed_tests_announced_once_twice :
    lookoutReached.watch.failed = ["Valyria: two of nine", "Valyria: tests failed"] := by
  have hnumbered : Reassembly.Numbered id [1, 2, 3] := by decide
  have hjournal : Journal ([1, 2, 3].map failingEvent) := failingJournal_journal
  have hserved : Machine.Guarded (step id failingEvent) (Served id [1, 2, 3]) start failingTwice :=
    guarded_of_system (overlapRun_served failingEvent)
  have hrun : Machine.run (step id failingEvent) start failingTwice = some lookoutReached :=
    (Option.some_get _).symm
  obtain ⟨m, c, n, -, -, -, hforwarded, hempty, hheard, -, hfailed, -⟩ :=
    failed_tests_announced_once hnumbered hjournal (by decide) hrun hserved
  obtain rfl : n = c := hheard (by decide +kernel)
  obtain rfl : n = m := hempty (List.isEmpty_iff.mp (by decide +kernel))
  obtain rfl : n = 3 := by
    have hlast : 3 ∈ lookoutReached.system.host.forwarded.map id ∧
      4 ∉ lookoutReached.system.host.forwarded.map id := by decide +kernel
    have hm := hforwarded 3
    have hm' := hforwarded 4
    simp only [hlast.1, true_iff, hlast.2, false_iff] at hm hm'
    omega
  rw [hfailed]
  decide +kernel

end Lookout

end ValyriaApp
