import ValyriaApp.Bridge.Supervisor
import ValyriaApp.Protocol.Capabilities

/-! # What `about/info` reports

The host judges a running daemon twice, in the handshake and for the about
surface, by the text before the first dot; the app judges it by the numbers.
The verdicts agree unless a version does not parse or a major has two spellings.
-/

namespace ValyriaApp.BridgeHost
open Bridge Protocol

/-- An open session with the workspace it was opened for. -/
structure LiveSession where
  root : String
  id : String
  socketPath : String
  session : Session

structure SessionInfo where
  workspaceRoot : String
  workspaceId : String
  socketPath : String
  origin : String
  protocolVersion : String
  runtimeVersion : String
  capabilities : List String
  permissionMode : Option String
  ownsDaemon : Bool
  authenticated : Bool

def SessionInfo.of (live : LiveSession) : SessionInfo where
  workspaceRoot := live.root
  workspaceId := live.id
  socketPath := live.socketPath
  origin := if live.session.origin = .adopted then "adopted" else "spawned"
  protocolVersion := live.session.negotiated.protocolVersion
  runtimeVersion := live.session.negotiated.runtimeVersion
  capabilities := live.session.negotiated.capabilities
  permissionMode := live.session.permissionMode
  ownsDaemon := live.session.child.isSome
  authenticated := live.session.authToken.isSome

structure AboutInfo where
  bridgeHost : String
  expectedProtocol : String
  compatibility : String
  session : Option SessionInfo

def aboutInfo (expectedProtocol : String) (live : Option LiveSession) : AboutInfo where
  bridgeHost := "0.1.0"
  expectedProtocol := expectedProtocol
  compatibility := match live with
    | none => "no session"
    | some live =>
      if major live.session.negotiated.protocolVersion = major expectedProtocol then "compatible"
      else "incompatible"
  session := live.map SessionInfo.of

/-- The bridge's handshake and its about surface both accept exactly what the app does not block. -/
def JudgedAlike (expected got : String) : Prop :=
  ∀ (hello : HelloResponse) (live : LiveSession) (capabilities : List String),
    hello.protocolVersion = got → live.session.negotiated.protocolVersion = got →
    ((∃ n, negotiate expected (.hello hello) = .ok n) ↔
      (compatVerdict expected (some ⟨got, capabilities⟩)).level ≠ .blocked) ∧
    ((aboutInfo expected (some live)).compatibility = "compatible" ↔
      (compatVerdict expected (some ⟨got, capabilities⟩)).level ≠ .blocked)

/-- Two versions that parse do not spell one major number in two ways, with white space, leading
zeros or digits a double cannot tell apart; otherwise the texts before the first dot differ. -/
def SpelledAlike (expected got : String) : Prop :=
  (∀ space digits space' digits', Reads expected space digits → Reads got space' digits' →
    Num.ofDigits digits = Num.ofDigits digits' → space = space' ∧ digits = digits') ∧
  ((∀ space digits, ¬ Reads expected space digits) ∨ (∀ space digits, ¬ Reads got space digits) →
    expected.toList.takeWhile (· ≠ '.') ≠ got.toList.takeWhile (· ≠ '.'))

/-- White space and digits are apart, so the text before the dot determines both. -/
theorem space_digits_inj {space digits space' digits' : List Char}
    (hspace : ∀ c ∈ space, Num.isSpace c = true) (hspace' : ∀ c ∈ space', Num.isSpace c = true)
    (hdigits : ∀ c ∈ digits, c.isDigit = true) (hdigits' : ∀ c ∈ digits', c.isDigit = true)
    (h : space ++ digits = space' ++ digits') : space = space' ∧ digits = digits' := by
  have hnone : ∀ ds : List Char, (∀ c ∈ ds, c.isDigit = true) →
      ds.takeWhile Num.isSpace = [] := by
    rintro (_ | ⟨d, ds⟩) hds
    · rfl
    · rw [List.takeWhile_cons_of_neg]
      simp [isSpace_eq_false (hds d List.mem_cons_self)]
  have htake := congrArg (List.takeWhile Num.isSpace) h
  rw [List.takeWhile_append_of_pos hspace, List.takeWhile_append_of_pos hspace',
    hnone _ hdigits, hnone _ hdigits', List.append_nil, List.append_nil] at htake
  subst htake
  exact ⟨rfl, List.append_cancel_left h⟩

section

variable {expected got : String} {space digits space' digits' : List Char}

theorem major_of_reads (h : Reads got space digits) : major got = space ++ digits := by
  obtain ⟨d, rest, hgot, -⟩ := h.eq
  have hdot : ∀ c ∈ space ++ digits, decide (c ≠ '.') = true := by
    intro c hc
    rw [decide_eq_true_iff]
    rintro rfl
    rcases List.mem_append.mp hc with hc | hc
    · exact absurd (h.space _ hc) (by decide)
    · exact absurd (h.digits _ hc) (by decide)
  rw [major, hgot, List.takeWhile_append_of_pos hdot, List.takeWhile_cons_of_neg (by simp),
    List.append_nil]

theorem reads_unique (h : Reads got space digits) (h' : Reads got space' digits') :
    space = space' ∧ digits = digits' := by
  apply space_digits_inj h.space h'.space h.digits h'.digits
  rw [← major_of_reads h, ← major_of_reads h']

theorem major_eq_iff (he : Reads expected space digits) (hg : Reads got space' digits') :
    major got = major expected ↔ space = space' ∧ digits = digits' := by
  rw [major_of_reads he, major_of_reads hg]
  constructor
  · intro h
    exact space_digits_inj he.space hg.space he.digits hg.digits h.symm
  · rintro ⟨rfl, rfl⟩
    rfl

theorem negotiate_hello {hello : HelloResponse} :
    (∃ n, negotiate expected (.hello hello) = .ok n) ↔
      major hello.protocolVersion = major expected := by
  by_cases hmajor : major hello.protocolVersion = major expected
  · simp [negotiate, hmajor]
  · simp [negotiate, hmajor]

theorem aboutInfo_compatible {live : LiveSession} :
    (aboutInfo expected (some live)).compatibility = "compatible" ↔
      major live.session.negotiated.protocolVersion = major expected := by
  by_cases hmajor : major live.session.negotiated.protocolVersion = major expected
  · simp [aboutInfo, hmajor]
  · simp [aboutInfo, hmajor]

/-- Both host verdicts are the comparison of the two texts. -/
theorem judgedAlike_iff_major :
    JudgedAlike expected got ↔ (major got = major expected ↔
      ∃ e g, majorMinor expected = some e ∧ majorMinor got = some g ∧
        e.major.strictEq g.major = true) := by
  constructor
  · intro h
    let session : Session := ⟨⟨got, "", []⟩, .adopted, none, none, none, false⟩
    obtain ⟨h, -⟩ := h ⟨got, "", []⟩ ⟨"", "", "", session⟩ [] rfl rfl
    rw [negotiate_hello, compatVerdict_ne_blocked] at h
    exact h
  · rintro h hello live capabilities rfl hlive
    rw [negotiate_hello, aboutInfo_compatible, compatVerdict_ne_blocked, hlive]
    exact ⟨h, h⟩

theorem judgedAlike_iff_of_unread (hparse : ¬ ((∃ space digits, Reads expected space digits) ∧
    ∃ space digits, Reads got space digits)) :
    JudgedAlike expected got ↔ SpelledAlike expected got := by
  have hnone : ¬ ∃ e g, majorMinor expected = some e ∧ majorMinor got = some g ∧
      e.major.strictEq g.major = true := by
    rintro ⟨e, g, he, hg, -⟩
    exact hparse ⟨exists_reads he, exists_reads hg⟩
  have hone : (∀ space digits, ¬ Reads expected space digits) ∨
      ∀ space digits, ¬ Reads got space digits := by
    simpa only [not_and_or, not_exists] using hparse
  rw [judgedAlike_iff_major]
  constructor
  · intro h
    constructor
    · intro space digits space' digits' he hg
      exact absurd ⟨⟨space, digits, he⟩, space', digits', hg⟩ hparse
    · exact fun _ heq => hnone (h.mp heq.symm)
  · rintro ⟨-, h⟩
    exact iff_of_false (fun heq => h hone heq.symm) hnone

theorem judgedAlike_iff_of_reads (he : Reads expected space digits)
    (hg : Reads got space' digits') : JudgedAlike expected got ↔ SpelledAlike expected got := by
  obtain ⟨minor, hexp⟩ := he.majorMinor
  obtain ⟨minor', hgot⟩ := hg.majorMinor
  have hequal : (∃ e g, majorMinor expected = some e ∧ majorMinor got = some g ∧
      e.major.strictEq g.major = true) ↔ Num.ofDigits digits = Num.ofDigits digits' := by
    simp [hexp, hgot, Num.strictEq_eq_true, Num.ofDigits_ne_nan]
  rw [judgedAlike_iff_major, major_eq_iff he hg, hequal]
  constructor
  · intro h
    constructor
    · intro space₁ digits₁ space₂ digits₂ he₁ hg₁ heq
      obtain ⟨rfl, rfl⟩ := reads_unique he he₁
      obtain ⟨rfl, rfl⟩ := reads_unique hg hg₁
      exact h.mpr heq
    · rintro (hnone | hnone)
      · exact absurd he (hnone _ _)
      · exact absurd hg (hnone _ _)
  · rintro ⟨h, -⟩
    constructor
    · rintro ⟨-, rfl⟩
      rfl
    · exact h _ _ _ _ he hg

/-- The two sides judge a pair of versions the same way exactly when no major is spelled in two
ways and no text that does not parse is taken for a major. -/
theorem judgedAlike_iff (expected got : String) :
    JudgedAlike expected got ↔ SpelledAlike expected got := by
  by_cases hparse : (∃ space digits, Reads expected space digits) ∧
      ∃ space digits, Reads got space digits
  · obtain ⟨⟨space, digits, he⟩, space', digits', hg⟩ := hparse
    exact judgedAlike_iff_of_reads he hg
  · exact judgedAlike_iff_of_unread hparse

theorem spelledAlike_of_numerals {m n : ℕ} (hm : m < 2 ^ 53) (hn : n < 2 ^ 53)
    (he : Reads expected [] (Nat.toDigits 10 m)) (hg : Reads got [] (Nat.toDigits 10 n)) :
    SpelledAlike expected got := by
  constructor
  · intro space digits space' digits' he' hg' heq
    obtain ⟨rfl, rfl⟩ := reads_unique he he'
    obtain ⟨rfl, rfl⟩ := reads_unique hg hg'
    rw [Num.ofDigits_toDigits hm, Num.ofDigits_toDigits hn, Num.natCast_inj] at heq
    exact ⟨rfl, congrArg _ heq⟩
  · rintro (hnone | hnone)
    · exact absurd he (hnone _ _)
    · exact absurd hg (hnone _ _)

/-- A major without a minor is accepted by the bridge and blocked by the app. -/
theorem not_judgedAlike_without_minor : ¬ JudgedAlike "1.12.0" "1" := by
  rw [judgedAlike_iff_major]
  intro h
  obtain ⟨_, _, -, hgot, -⟩ := h.mp (by decide)
  have hnone : majorMinor "1" = none := by decide
  rw [hnone] at hgot
  cases hgot

end

end ValyriaApp.BridgeHost
