import Mathlib.Data.List.TakeWhile
import ValyriaApp.Protocol.Json

/-! # The compatibility verdict

`compatVerdict` reads `major.minor` off both protocol versions as numbers and
compares them. A version of that form is white space, digits, a dot and a
digit; what stands before the dot decides the major.
-/

namespace ValyriaApp.Protocol

def knownCapabilities : List String :=
  ["plan", "doctor", "storage", "memory", "models", "rollback", "events_resume", "config_write",
    "task_permission_mode", "repo", "hardware", "model_manage", "context", "ledger",
    "diagnostics_v2", "client_auth", "stream_filter", "approval_scope", "daemon",
    "model_inference"]

inductive CompatLevel where
  | ok
  | reduced
  | blocked
  deriving DecidableEq

structure CompatVerdict where
  level : CompatLevel
  headline : String
  detail : String

structure MajorMinor where
  major : Num
  minor : Num
  deriving DecidableEq

/-- The groups of `/^(\d+)\.(\d+)/`. -/
def majorMinorGroups (cs : List Char) : Option (List Char × List Char) :=
  match cs.takeWhile Char.isDigit, cs.dropWhile Char.isDigit with
  | c :: major, '.' :: rest =>
    match rest.takeWhile Char.isDigit with
    | [] => none
    | d :: minor => some (c :: major, d :: minor)
  | _, _ => none

def majorMinor (v : String) : Option MajorMinor :=
  (majorMinorGroups (Num.trim v.toList)).map fun m => ⟨Num.ofDigits m.1, Num.ofDigits m.2⟩

structure Negotiated where
  protocolVersion : String
  capabilities : List String

def compatVerdict (expectedProtocol : String) : Option Negotiated → CompatVerdict
  | none => {
      level := .ok
      headline := "Not connected"
      detail := "This build speaks protocol " ++ expectedProtocol
        ++ ". Open a workspace to check the running Core." }
  | some negotiated =>
    let blocked : CompatVerdict := {
      level := .blocked
      headline := "Incompatible Core"
      detail := "The Core runtime speaks protocol " ++ negotiated.protocolVersion
        ++ "; this build of the app requires " ++ expectedProtocol
        ++ ". Use the Core bundled with this app, or update the app to a build that matches. "
        ++ "The app will not run against a different protocol major." }
    match majorMinor expectedProtocol, majorMinor negotiated.protocolVersion with
    | some exp, some got =>
      if !exp.major.strictEq got.major then blocked
      else if got.minor < exp.minor then
        let missing := knownCapabilities.filter (· ∉ negotiated.capabilities)
        { level := .reduced
          headline := "Older Core — some features reduced"
          detail := "Core is protocol " ++ negotiated.protocolVersion ++ "; this build expects "
            ++ expectedProtocol ++
            (if missing ≠ [] then ". Surfaces needing " ++ String.intercalate ", " missing
              ++ " show their unavailable state."
            else ". All advertised capabilities are present.") }
      else if exp.minor < got.minor then
        { level := .ok
          headline := "Compatible (newer Core)"
          detail := "Core is protocol " ++ negotiated.protocolVersion ++ ", ahead of this build's "
            ++ expectedProtocol ++ ". Unknown response fields and event kinds are ignored." }
      else
        { level := .ok
          headline := "Compatible"
          detail := "Core and app both speak protocol " ++ negotiated.protocolVersion ++ "." }
    | _, _ => blocked

/-- The versions `majorMinor` reads: white space, digits, a dot and a digit. -/
structure Reads (v : String) (space digits : List Char) : Prop where
  eq : ∃ d rest, v.toList = space ++ digits ++ '.' :: d :: rest ∧ d.isDigit = true
  space : ∀ c ∈ space, Num.isSpace c = true
  ne_nil : digits ≠ []
  digits : ∀ c ∈ digits, c.isDigit = true

theorem isSpace_eq_false {c : Char} (h : c.isDigit = true) : Num.isSpace c = false := by
  have hc : 48 ≤ c.toNat ∧ c.toNat ≤ 57 := by
    simpa [Char.isDigit, UInt32.le_iff_toNat_le] using h
  simp [Num.isSpace]
  omega

theorem trim_append (cs : List Char) :
    ∃ t, cs = cs.takeWhile Num.isSpace ++ Num.trim cs ++ t := by
  refine ⟨((cs.dropWhile Num.isSpace).reverse.takeWhile Num.isSpace).reverse, ?_⟩
  rw [Num.trim, List.append_assoc, ← List.reverse_append, List.takeWhile_append_dropWhile,
    List.reverse_reverse, List.takeWhile_append_dropWhile]

theorem dropWhile_append_cons {α : Type*} {p : α → Bool} {x : α} (hx : p x = false)
    (xs ys : List α) : (xs ++ x :: ys).dropWhile p = xs.dropWhile p ++ x :: ys := by
  rw [List.dropWhile_append]
  split_ifs with hxs
  · rw [List.dropWhile_cons_of_neg (by simp [hx]), List.isEmpty_iff.mp hxs, List.nil_append]
  · rfl

variable {v : String} {space digits : List Char}

theorem Reads.trim (h : Reads v space digits) :
    ∃ d rest, Num.trim v.toList = digits ++ '.' :: d :: rest ∧ d.isDigit = true := by
  obtain ⟨d, rest, hv, hd⟩ := h.eq
  obtain ⟨c, ds, rfl⟩ := List.exists_cons_of_ne_nil h.ne_nil
  have hc : Num.isSpace c = false := isSpace_eq_false (h.digits c List.mem_cons_self)
  have hleft : v.toList.dropWhile Num.isSpace = c :: ds ++ '.' :: d :: rest := by
    rw [hv, List.append_assoc, List.dropWhile_append_of_pos h.space, List.cons_append,
      List.dropWhile_cons_of_neg (by simp [hc])]
  have hright : (c :: ds ++ '.' :: d :: rest).reverse.dropWhile Num.isSpace =
      rest.reverse.dropWhile Num.isSpace ++ d :: '.' :: (c :: ds).reverse := by
    rw [← dropWhile_append_cons (isSpace_eq_false hd)]
    simp
  refine ⟨d, (rest.reverse.dropWhile Num.isSpace).reverse, ?_, hd⟩
  rw [Num.trim, hleft, hright]
  simp

theorem Reads.majorMinor (h : Reads v space digits) :
    ∃ minor, majorMinor v = some ⟨Num.ofDigits digits, minor⟩ := by
  obtain ⟨d, rest, htrim, hd⟩ := h.trim
  obtain ⟨c, ds, rfl⟩ := List.exists_cons_of_ne_nil h.ne_nil
  have htake : (c :: ds ++ '.' :: d :: rest).takeWhile Char.isDigit = c :: ds := by
    rw [List.takeWhile_append_of_pos h.digits, List.takeWhile_cons_of_neg (by decide),
      List.append_nil]
  have hdrop : (c :: ds ++ '.' :: d :: rest).dropWhile Char.isDigit = '.' :: d :: rest := by
    rw [List.dropWhile_append_of_pos h.digits, List.dropWhile_cons_of_neg (by decide)]
  refine ⟨Num.ofDigits (d :: rest.takeWhile Char.isDigit), ?_⟩
  rw [Protocol.majorMinor, htrim, majorMinorGroups, htake, hdrop]
  simp [hd]

/-- Nothing else is read. -/
theorem exists_reads {m : MajorMinor} (h : majorMinor v = some m) :
    ∃ space digits, Reads v space digits := by
  obtain ⟨⟨major, minor⟩, hgroups, -⟩ := Option.map_eq_some_iff.mp h
  obtain ⟨t, htrim⟩ := trim_append v.toList
  refine ⟨v.toList.takeWhile Num.isSpace, (Num.trim v.toList).takeWhile Char.isDigit, ?_⟩
  rw [majorMinorGroups] at hgroups
  split at hgroups
  case h_2 => cases hgroups
  case h_1 c ds rest htake hdrop =>
    split at hgroups
    case h_1 => cases hgroups
    case h_2 d ds' hrest =>
      have hsplit := List.takeWhile_append_dropWhile (p := Char.isDigit) (l := Num.trim v.toList)
      have hsplit' := List.takeWhile_append_dropWhile (p := Char.isDigit) (l := rest)
      have hd : d.isDigit = true := List.mem_takeWhile_imp (hrest ▸ List.mem_cons_self)
      refine ⟨⟨d, ds' ++ rest.dropWhile Char.isDigit ++ t, ?_, hd⟩, ?_, ?_, ?_⟩
      · rw [hdrop, ← hsplit', hrest] at hsplit
        conv_lhs => rw [htrim, ← hsplit]
        simp
      · exact fun c hc => List.mem_takeWhile_imp hc
      · rw [htake]
        exact List.cons_ne_nil c ds
      · exact fun c hc => List.mem_takeWhile_imp hc

/-- A verdict other than `blocked` needs two versions with one major number. -/
theorem compatVerdict_ne_blocked {expectedProtocol : String} {n : Negotiated} :
    (compatVerdict expectedProtocol (some n)).level ≠ .blocked ↔
      ∃ e g, majorMinor expectedProtocol = some e ∧ majorMinor n.protocolVersion = some g ∧
        e.major.strictEq g.major = true := by
  rw [compatVerdict]
  rcases hexp : Protocol.majorMinor expectedProtocol with _ | e
  · simp
  rcases hgot : Protocol.majorMinor n.protocolVersion with _ | g
  · simp
  · by_cases hmajor : e.major.strictEq g.major = true
    · simp only [hmajor, Bool.not_true, Bool.false_eq_true, if_false]
      split_ifs <;> simp [hmajor]
    · simp [hmajor]

end ValyriaApp.Protocol
