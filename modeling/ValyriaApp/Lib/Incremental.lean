import Mathlib.Data.List.Infix
import Mathlib.Tactic.SplitIfs

/-! # Incremental decoders

A decoder takes turns at a buffer: it emits a value and goes on, or it waits
for more. When more input never changes a turn already taken, feeding a stream
in chunks is the same as feeding it at once.
-/

namespace ValyriaApp.Lib

variable {σ α β : Type*}

/-- How a turn ends, and what it leaves of the buffer. -/
inductive Turn (σ α β : Type*) where
  | wait (s : σ) (rest : List α)
  | go (s : σ) (out : β) (rest : List α)

structure StreamDecoder (σ α β : Type*) where
  turn : σ → List α → Turn σ α β
  rank : σ → ℕ
  go_lt : ∀ {s xs s' out rest}, turn s xs = .go s' out rest →
    rest.length + rank s' < xs.length + rank s
  go_append : ∀ {s xs s' out rest}, turn s xs = .go s' out rest → ∀ ys,
    turn s (xs ++ ys) = .go s' out (rest ++ ys)
  wait_append : ∀ {s xs s' rest}, turn s xs = .wait s' rest → ∀ ys,
    turn s' (rest ++ ys) = turn s (xs ++ ys)

/-- Where a decoder stands, and what it has emitted. -/
structure Fed (σ α β : Type*) where
  state : σ
  buffer : List α
  out : List β

namespace StreamDecoder

variable (D : StreamDecoder σ α β)

/-- Take turns until one waits. -/
def drain (s : σ) (xs : List α) : Fed σ α β :=
  match _h : D.turn s xs with
  | .wait s' rest => ⟨s', rest, []⟩
  | .go s' out rest =>
    let f := drain s' rest
    ⟨f.state, f.buffer, out :: f.out⟩
termination_by xs.length + D.rank s
decreasing_by exact D.go_lt _h

def feed (f : Fed σ α β) (chunk : List α) : Fed σ α β :=
  let g := D.drain f.state (f.buffer ++ chunk)
  ⟨g.state, g.buffer, f.out ++ g.out⟩

variable {D} {s s' : σ} {xs xs' rest : List α} {out : β}

theorem drain_of_wait (h : D.turn s xs = .wait s' rest) : D.drain s xs = ⟨s', rest, []⟩ := by
  rw [drain]
  split
  · next h' => rw [h] at h'; cases h'; rfl
  · next h' => rw [h] at h'; cases h'

theorem drain_of_go (h : D.turn s xs = .go s' out rest) : D.drain s xs =
    ⟨(D.drain s' rest).state, (D.drain s' rest).buffer, out :: (D.drain s' rest).out⟩ := by
  rw [drain]
  split
  · next h' => rw [h] at h'; cases h'
  · next h' => rw [h] at h'; cases h'; rfl

theorem drain_congr (h : D.turn s xs = D.turn s' xs') : D.drain s xs = D.drain s' xs' := by
  cases h' : D.turn s' xs' with
  | wait t rest => rw [drain_of_wait h', drain_of_wait (h.trans h')]
  | go t out rest => rw [drain_of_go h', drain_of_go (h.trans h')]

theorem feed_drain (s : σ) (xs ys : List α) :
    D.feed (D.drain s xs) ys = D.drain s (xs ++ ys) := by
  cases h : D.turn s xs with
  | wait s' rest =>
    rw [drain_of_wait h, ← drain_congr (D.wait_append h ys)]
    rfl
  | go s' out rest =>
    rw [drain_of_go h, drain_of_go (D.go_append h ys), ← feed_drain s' rest ys]
    rfl
termination_by xs.length + D.rank s
decreasing_by exact D.go_lt h

/-- The chunks of a stream do not matter. -/
theorem foldl_feed (s : σ) (xs : List α) (chunks : List (List α)) :
    chunks.foldl D.feed (D.drain s xs) = D.drain s (xs ++ chunks.flatten) := by
  induction chunks generalizing xs with
  | nil => simp
  | cons chunk chunks ih =>
    rw [List.foldl_cons, feed_drain, ih, List.flatten_cons, List.append_assoc]

theorem out_drain_append (s : σ) (xs ys : List α) :
    (D.drain s (xs ++ ys)).out = (D.drain s xs).out ++
      (D.drain (D.drain s xs).state ((D.drain s xs).buffer ++ ys)).out := by
  rw [← feed_drain]
  rfl

theorem out_drain_prefix (s : σ) (xs ys : List α) :
    (D.drain s xs).out <+: (D.drain s (xs ++ ys)).out := by
  rw [out_drain_append]
  exact List.prefix_append _ _

/-- What every turn keeps of the state, draining keeps. -/
theorem drain_keeps {P : σ → Prop}
    (hwait : ∀ s xs s' rest, D.turn s xs = .wait s' rest → P s → P s')
    (hgo : ∀ s xs s' out rest, D.turn s xs = .go s' out rest → P s → P s') (s : σ) (xs : List α)
    (hs : P s) : P (D.drain s xs).state := by
  cases h : D.turn s xs with
  | wait s' rest =>
    rw [drain_of_wait h]
    exact hwait _ _ _ _ h hs
  | go s' out rest =>
    rw [drain_of_go h]
    exact drain_keeps hwait hgo s' rest (hgo _ _ _ _ _ h hs)
termination_by xs.length + D.rank s
decreasing_by exact D.go_lt h

/-! ### A consumer that may break off -/

variable (D) in
/-- Take turns until one waits or the consumer breaks off at what is emitted, and say whether it
has. -/
def drainUntil (breaks : β → Bool) (s : σ) (xs : List α) : Fed σ α β × Bool :=
  match _h : D.turn s xs with
  | .wait s' rest => (⟨s', rest, []⟩, false)
  | .go s' out rest =>
    if breaks out then (⟨s', rest, [out]⟩, true)
    else
      let f := drainUntil breaks s' rest
      (⟨f.1.state, f.1.buffer, out :: f.1.out⟩, f.2)
termination_by xs.length + D.rank s
decreasing_by exact D.go_lt _h

variable (D) in
def feedUntil (breaks : β → Bool) (f : Fed σ α β × Bool) (chunk : List α) : Fed σ α β × Bool :=
  let g := D.drainUntil breaks f.1.state (f.1.buffer ++ chunk)
  (⟨g.1.state, g.1.buffer, f.1.out ++ g.1.out⟩, f.2 || g.2)

variable {breaks : β → Bool}

theorem drainUntil_of_wait (h : D.turn s xs = .wait s' rest) :
    D.drainUntil breaks s xs = (⟨s', rest, []⟩, false) := by
  rw [drainUntil]
  split
  · next h' => rw [h] at h'; cases h'; rfl
  · next h' => rw [h] at h'; cases h'

theorem drainUntil_of_go (h : D.turn s xs = .go s' out rest) :
    D.drainUntil breaks s xs =
      if breaks out then (⟨s', rest, [out]⟩, true)
      else (⟨(D.drainUntil breaks s' rest).1.state, (D.drainUntil breaks s' rest).1.buffer,
        out :: (D.drainUntil breaks s' rest).1.out⟩, (D.drainUntil breaks s' rest).2) := by
  rw [drainUntil]
  split
  · next h' => rw [h] at h'; cases h'
  · next h' => rw [h] at h'; cases h'; rfl

/-- The consumer breaks off exactly when something is emitted it breaks off at. -/
theorem drainUntil_breaks (s : σ) (xs : List α) :
    (D.drainUntil breaks s xs).2 = true ↔ ∃ out ∈ (D.drain s xs).out, breaks out = true := by
  cases h : D.turn s xs with
  | wait s' rest =>
    rw [drainUntil_of_wait h, drain_of_wait h]
    simp
  | go s' out rest =>
    rw [drainUntil_of_go h, drain_of_go h]
    cases hout : breaks out with
    | true => simp [hout]
    | false =>
      have ih := drainUntil_breaks s' rest
      simpa [hout] using ih
termination_by xs.length + D.rank s
decreasing_by exact D.go_lt h

theorem drainUntil_eq_drain (s : σ) (xs : List α)
    (hout : ∀ out ∈ (D.drain s xs).out, breaks out = false) :
    D.drainUntil breaks s xs = (D.drain s xs, false) := by
  cases h : D.turn s xs with
  | wait s' rest => rw [drainUntil_of_wait h, drain_of_wait h]
  | go s' out rest =>
    rw [drain_of_go h] at hout ⊢
    obtain ⟨hfirst, hrest⟩ := List.forall_mem_cons.mp hout
    rw [drainUntil_of_go h, drainUntil_eq_drain s' rest hrest, hfirst]
    rfl
termination_by xs.length + D.rank s
decreasing_by exact D.go_lt h

/-- As long as the consumer does not break off, the chunks of a stream do not matter. -/
theorem foldl_feedUntil (s : σ) (xs : List α) (chunks : List (List α))
    (hout : ∀ out ∈ (D.drain s (xs ++ chunks.flatten)).out, breaks out = false) :
    chunks.foldl (D.feedUntil breaks) (D.drain s xs, false) =
      (D.drain s (xs ++ chunks.flatten), false) := by
  induction chunks generalizing xs with
  | nil => simp
  | cons chunk chunks ih =>
    rw [List.flatten_cons, ← List.append_assoc] at hout ⊢
    have hchunk : ∀ out ∈ (D.drain (D.drain s xs).state ((D.drain s xs).buffer ++ chunk)).out,
        breaks out = false := by
      intro out hmem
      refine hout out ?_
      rw [out_drain_append, out_drain_append]
      exact List.mem_append_left _ (List.mem_append_right _ hmem)
    have hfeed : D.feedUntil breaks (D.drain s xs, false) chunk =
        (D.feed (D.drain s xs) chunk, false) := by
      rw [feedUntil, drainUntil_eq_drain _ _ hchunk]
      rfl
    rw [List.foldl_cons, hfeed, feed_drain, ih _ hout]

end StreamDecoder

/-! ## Splitting at a delimiter -/

section Delimiter

variable [DecidableEq α]

/-- What stands before and after the first occurrence of the delimiter. -/
def splitFirst (mark : List α) : List α → Option (List α × List α)
  | [] => if mark = [] then some ([], []) else none
  | x :: xs =>
    if mark <+: x :: xs then some ([], (x :: xs).drop mark.length)
    else (splitFirst mark xs).map fun p => (x :: p.1, p.2)

variable {mark xs h r : List α}

theorem eq_of_splitFirst (hs : splitFirst mark xs = some (h, r)) : xs = h ++ mark ++ r := by
  induction xs generalizing h with
  | nil =>
    obtain ⟨rfl, hs⟩ := Option.ite_none_right_eq_some.mp hs
    cases hs
    rfl
  | cons x xs ih =>
    rw [splitFirst] at hs
    split_ifs at hs with hmark
    · obtain ⟨t, ht⟩ := hmark
      cases hs
      rw [← ht, List.drop_left, List.nil_append]
    · obtain ⟨⟨h', r'⟩, hp, hs⟩ := Option.map_eq_some_iff.mp hs
      cases hs
      rw [ih hp]
      rfl

theorem splitFirst_append (hs : splitFirst mark xs = some (h, r)) (ys : List α) :
    splitFirst mark (xs ++ ys) = some (h, r ++ ys) := by
  induction xs generalizing h with
  | nil =>
    obtain ⟨rfl, hs⟩ := Option.ite_none_right_eq_some.mp hs
    cases hs
    cases ys <;> simp [splitFirst]
  | cons x xs ih =>
    rw [splitFirst] at hs
    rw [List.cons_append, splitFirst]
    split_ifs at hs with hmark
    · cases hs
      have hmark' : mark <+: x :: (xs ++ ys) := hmark.trans (List.prefix_append (x :: xs) ys)
      rw [if_pos hmark', ← List.cons_append, List.drop_append_of_le_length hmark.length_le]
    · obtain ⟨⟨h', r'⟩, hp, hs⟩ := Option.map_eq_some_iff.mp hs
      cases hs
      have hlen : mark.length ≤ (x :: xs).length := by
        rw [eq_of_splitFirst hp]
        simp
        omega
      have hmark' : ¬ mark <+: x :: (xs ++ ys) := by
        intro hpre
        rw [← List.cons_append] at hpre
        exact hmark (List.prefix_of_prefix_length_le hpre (List.prefix_append _ _) hlen)
      rw [if_neg hmark', ih hp]
      rfl

/-- The delimiter is found where it stands when its first letter does not occur before. -/
theorem splitFirst_of_not_mem {a : α} (ha : a ∉ h) :
    splitFirst (a :: mark) (h ++ a :: mark ++ r) = some (h, r) := by
  induction h with
  | nil => simp [splitFirst]
  | cons x h ih =>
    obtain ⟨hx, ha⟩ := not_or.mp ((not_congr List.mem_cons).mp ha)
    have hmark : ¬ a :: mark <+: x :: (h ++ a :: mark ++ r) := by
      intro hpre
      exact hx (List.cons_prefix_cons.mp hpre).1
    rw [List.cons_append, List.cons_append, splitFirst, if_neg hmark, ih ha]
    rfl

end Delimiter

end ValyriaApp.Lib
