import Mathlib.Logic.Basic

/-! # The hello handshake

Connect to a socket, send `hello` and refuse a daemon whose protocol major is
not the one this build was compiled against.
-/

namespace ValyriaApp.Bridge

inductive BridgeError where
  | workspaceRoot
  | runDir
  | protocolMismatch (expected got : String)
  | handshake (message : String)
  | transport (message : String)
  | spawn
  | startupTimeout (waitedMs : Nat)
  deriving DecidableEq

def BridgeError.code : BridgeError → String
  | .workspaceRoot => "bridge.workspace.bad_root"
  | .runDir => "bridge.run_dir"
  | .protocolMismatch _ _ => "bridge.protocol.mismatch"
  | .handshake _ => "bridge.handshake"
  | .transport _ => "bridge.transport"
  | .spawn => "bridge.spawn"
  | .startupTimeout _ => "bridge.startup_timeout"

/-- What a daemon says of itself. -/
structure HelloResponse where
  protocolVersion : String
  runtimeVersion : String
  capabilities : List String
  deriving DecidableEq

inductive Response where
  | hello (h : HelloResponse)
  | error (code message : String)
  | other (got : String)

structure NegotiatedSession where
  protocolVersion : String
  runtimeVersion : String
  capabilities : List String
  deriving DecidableEq

/-- First dotted component of a version, or the whole string if it has no dot. -/
def major (version : String) : List Char := version.toList.takeWhile (· ≠ '.')

def negotiate (expectedProtocol : String) : Response → Except BridgeError NegotiatedSession
  | .hello h =>
    if major h.protocolVersion ≠ major expectedProtocol then
      .error (.protocolMismatch expectedProtocol h.protocolVersion)
    else .ok ⟨h.protocolVersion, h.runtimeVersion, h.capabilities⟩
  | .error code message =>
    if code = "protocol.transport" then .error (.transport message)
    else .error (.handshake (code ++ ": " ++ message))
  | .other got => .error (.handshake ("expected a hello response, got " ++ got))

variable {expectedProtocol : String} {r : Response}

/-- Only a daemon of the expected major is accepted. -/
theorem negotiate_eq_ok {n : NegotiatedSession} (h : negotiate expectedProtocol r = .ok n) :
    ∃ hello, r = .hello hello ∧ major hello.protocolVersion = major expectedProtocol := by
  cases r with
  | hello hello =>
    by_cases hmajor : major hello.protocolVersion = major expectedProtocol
    · exact ⟨hello, rfl, hmajor⟩
    · simp [negotiate, hmajor] at h
  | error code message =>
    by_cases hcode : code = "protocol.transport"
    · simp [negotiate, hcode] at h
    · simp [negotiate, hcode] at h
  | other got => cases h

end ValyriaApp.Bridge
