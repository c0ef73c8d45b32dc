import Mic3.Execution
import Mic3.Uuid

/-! Catalog releases: what `RegisterRelease.execute` lets through, and which edits of a release
accepted work forbids. -/
namespace Mic3

structure ReleaseDefinition where
  modelId : String
  displayName : String
  imageDigest : String
  executionDefinition : ExecutionDefinition

structure ModelRelease where
  id : UUID
  definition : ReleaseDefinition

/-- `str.isspace` of one character, which is also `\s` of the regular expressions. -/
def isSpace (c : Char) : Bool :=
  let n := c.toNat
  (9 ≤ n && n ≤ 13) || (28 ≤ n && n ≤ 32) || n = 0x85 || n = 0xa0 || n = 0x1680 ||
    (0x2000 ≤ n && n ≤ 0x200a) || n = 0x2028 || n = 0x2029 || n = 0x202f || n = 0x205f || n = 0x3000

def isLowerHex (c : Char) : Bool := ('0' ≤ c && c ≤ '9') || ('a' ≤ c && c ≤ 'f')

/-- `[^\s@]+@sha256:[0-9a-f]{64}`, the whole text. The part before the digest holds no `@`, so the
first one separates them. -/
def isPinnedImage (image : String) : Bool :=
  let (name, rest) := image.toList.span (· ≠ '@')
  name ≠ [] && !name.any isSpace && rest.take 8 = "@sha256:".toList &&
    (rest.drop 8).length = 64 && (rest.drop 8).all isLowerHex

namespace RegisterRelease

def required : List String := ["model_id", "display_name", "image_digest", "execution_definition"]

/-- A field that is a string with a character that is no whitespace. -/
def textField (config : Json) (field : String) : Except Raised String :=
  match config.get? field with
  | some (.str text) =>
    if text.toList.all isSpace then
      throw (.modelError "Model identifier, display name and image must be nonempty strings.")
    else pure text
  | _ => throw (.modelError "Model identifier, display name and image must be nonempty strings.")

/-- The release definition `execute` hands to the catalog. -/
def definition (config : Json) : Except Raised ReleaseDefinition :=
  let malformed := Raised.modelError "Invalid release configuration fields."
  match config with
  | .obj members =>
    let keys := members.map (·.1)
    if ¬ keys ⊆ required ∨ ¬ required ⊆ keys then throw malformed
    else do
    let modelId ← textField config "model_id"
    let displayName ← textField config "display_name"
    let imageDigest ← textField config "image_digest"
    let modelId ← validateKey modelId
    if ¬ isPinnedImage imageDigest then
      throw (.modelError "The image must be pinned to a lowercase SHA-256 digest.")
    let execution ← ExecutionDefinition.fromDict ((config.get? "execution_definition").getD .null)
    return ⟨modelId, displayName, imageDigest, execution⟩
  | _ => throw malformed

end RegisterRelease

def protectedMode (mode : String) : Raised :=
  .modelError ("Mode '" ++ mode ++ "' is used by accepted unfinished runs and cannot be changed.")

def ensureActiveModesUnchanged (current proposed : ExecutionDefinition) :
    List String → Except Raised Unit
  | [] => pure ()
  | mode :: modes =>
    if current.mode? mode ≠ proposed.mode? mode then throw (protectedMode mode)
    else ensureActiveModesUnchanged current proposed modes

theorem ensureActiveModesUnchanged_ok {current proposed : ExecutionDefinition} {modes : List String} :
    ensureActiveModesUnchanged current proposed modes = .ok () ↔
      ∀ mode ∈ modes, current.mode? mode = proposed.mode? mode := by
  induction modes with
  | nil => simp [ensureActiveModesUnchanged, pure, Except.pure]
  | cons mode modes ih =>
    by_cases h : current.mode? mode = proposed.mode? mode
    · simpa [ensureActiveModesUnchanged, h] using ih
    · simp [ensureActiveModesUnchanged, h, throw, throwThe, MonadExceptOf.throw]

end Mic3
