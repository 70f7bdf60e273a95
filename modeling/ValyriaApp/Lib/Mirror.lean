import Mathlib.Data.Nat.Notation
import Mathlib.Tactic.TypeStar

/-! # Pages that mirror a value

A page shows what was posted to it last, as long as its script runs. A script
that starts sends a greeting, and a greeting is answered with the current value.
The page mirrors a value when a greeting is on the way or what was posted last is
the value; it then shows the value as soon as nothing is on the way.
-/

namespace Mirror

structure Page (μ : Type*) where
  /-- The script runs. -/
  live : Bool
  /-- The greetings that have not been answered. -/
  greetings : ℕ
  inbox : List μ
  shown : Option μ

namespace Page

variable {μ : Type*}

def blank : Page μ := { live := false, greetings := 0, inbox := [], shown := none }

def post (p : Page μ) (m : μ) : Page μ := { p with inbox := p.inbox ++ [m] }

/-- What happens on the side of the page. -/
inductive Action where
  | load
  | unload
  | deliver
  deriving DecidableEq

/-- A message that finds no script is lost. -/
def act (p : Page μ) : Action → Option (Page μ)
  | .load => some { p with live := true, greetings := p.greetings + 1, shown := none }
  | .unload => some { p with live := false, shown := none }
  | .deliver =>
    match p.inbox with
    | [] => none
    | m :: inbox => some { p with inbox, shown := if p.live then some m else none }

/-- A greeting is answered with `m`. -/
def answer (p : Page μ) (m : μ) : Option (Page μ) :=
  match p.greetings with
  | 0 => none
  | n + 1 => some ({ p with greetings := n }.post m)

/-- What the page shows when everything posted has been delivered. -/
def latest (p : Page μ) : Option μ := p.inbox.getLast?.or p.shown

/-- The script runs and nothing is on the way. -/
structure Settled (p : Page μ) : Prop where
  live : p.live = true
  greetings : p.greetings = 0
  inbox : p.inbox = []

def Mirrors (p : Page μ) (m : μ) : Prop :=
  p.live = true → 0 < p.greetings ∨ p.latest = some m

variable {p p' : Page μ} {a : Action} {m m' : μ}

@[simp] theorem latest_post (p : Page μ) (m : μ) : (p.post m).latest = some m := by
  simp [latest, post]

theorem mirrors_post (p : Page μ) (m : μ) : (p.post m).Mirrors m :=
  fun _ => Or.inr (latest_post p m)

theorem mirrors_answer (h : p.answer m = some p') : p'.Mirrors m := by
  rw [answer] at h
  split at h
  · contradiction
  · obtain rfl := Option.some.inj h
    exact mirrors_post _ m

/-- What happens on the side of the page keeps the mirror. -/
theorem Mirrors.act (h : p.Mirrors m) (hact : p.act a = some p') : p'.Mirrors m := by
  cases a with
  | load =>
    cases hact
    exact fun _ => Or.inl (Nat.succ_pos _)
  | unload =>
    cases hact
    rintro ⟨⟩
  | deliver =>
    rw [Page.act] at hact
    split at hact
    · contradiction
    · next m' inbox hinbox =>
      obtain rfl := Option.some.inj hact
      intro hlive
      change p.live = true at hlive
      refine (h hlive).imp_right fun hlatest => ?_
      rw [latest, hinbox] at hlatest
      cases inbox with
      | nil => simpa [latest, hlive] using hlatest
      | cons next inbox => simpa [latest] using hlatest

theorem Mirrors.shown (h : p.Mirrors m) (hp : p.Settled) : p.shown = some m := by
  have hlatest := (h hp.live).resolve_left (by simp [hp.greetings])
  simpa [latest, hp.inbox] using hlatest

end Page

end Mirror
