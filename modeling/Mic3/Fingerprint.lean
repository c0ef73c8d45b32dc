import Mic3.Catalog
import Mic3.Sha256

/-! Computation identity: the canonical text of a run's computation, and its SHA-256. -/
namespace Mic3

/-- `sha256(text.encode("utf-8")).hexdigest()`. -/
def sha256Hex (text : List Char) : String :=
  String.ofList ((Sha256.digest (utf8 text)).flatMap (hexText 8))

/-- The invocation of the mode that parameters select. -/
def selectedInvocation (release : ReleaseDefinition) (parameters : Json) : Except Raised Invocation :=
  match parameters.get? "mode" with
  | none => throw .keyError
  | some mode => release.executionDefinition.resolve (.obj [("mode", mode)])

/-- The payload that is hashed. -/
def fingerprintPayload (release : ReleaseDefinition) (parameters : Json) : Except Raised Json := do
  let invocation ← selectedInvocation release parameters
  return .obj [("model_id", .str release.modelId), ("image_digest", .str release.imageDigest),
    ("execution_definition", invocation.computationDict), ("parameters", parameters)]

def fingerprint (release : ReleaseDefinition) (parameters : Json) : Except Raised String := do
  let payload ← fingerprintPayload release parameters
  if payload.encodable then return sha256Hex (payload.dumps true false) else throw .valueError

theorem fingerprint_noFailure (release : ReleaseDefinition) (parameters : Json) :
    NoFailure (fingerprint release parameters) := by
  have hinvocation : NoFailure (selectedInvocation release parameters) := by
    unfold selectedInvocation
    split
    · exact .throw (fun _ _ he => by cases he)
    · exact release.executionDefinition.resolve_noFailure _
  refine .bind (.bind hinvocation fun _ => .pure _) fun payload => ?_
  split
  · exact .pure _
  · exact .throw (fun _ _ he => by cases he)

/-- A removed mode is a `ModelError` of `fingerprint`, and means no match. -/
def matchesFingerprint (release : ReleaseDefinition) (parameters : Json) (expected : String) :
    Except Raised Bool :=
  match fingerprint release parameters with
  | .ok text => pure (text = expected)
  | .error (.modelError _) => pure false
  | .error e => throw e

theorem matchesFingerprint_noFailure (release : ReleaseDefinition) (parameters : Json)
    (expected : String) : NoFailure (matchesFingerprint release parameters expected) := by
  unfold matchesFingerprint
  split
  · exact .pure _
  · exact .pure _
  · rename_i e _ he
    exact fun code artifacts h =>
      fingerprint_noFailure release parameters code artifacts (he.trans (congrArg _ (Except.error.inj h)))

end Mic3
