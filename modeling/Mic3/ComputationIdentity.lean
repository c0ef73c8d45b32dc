import Mic3.CanonicalText

/-! The fingerprint's canonical text, for any parameters, identifies exactly the computation. -/
namespace Mic3

/-- The parameters' mode is a mode of the release, with this invocation. -/
def Selects (d : ReleaseDefinition) (parameters : Json) (i : Invocation) : Prop :=
  ∃ mode, parameters.get? "mode" = some (.str mode) ∧ d.executionDefinition.mode? mode = some i

/-- What two runs must have in common to compute the same. -/
structure SameComputation (d d' : ReleaseDefinition) (i i' : Invocation) (p p' : Json) : Prop where
  modelId : d.modelId = d'.modelId
  imageDigest : d.imageDigest = d'.imageDigest
  arguments : i.arguments = i'.arguments
  workingDirectory : i.workingDirectory = i'.workingDirectory
  outputDirectory : i.outputDirectory = i'.outputDirectory
  parameters : p.Same p'

/-- SHA-256 tells two texts apart. -/
def NoCollision (text text' : List Char) : Prop :=
  Sha256.digest (utf8 text) = Sha256.digest (utf8 text') → utf8 text = utf8 text'

/-- The payload of a selected invocation. -/
def Invocation.payloadFields (i : Invocation) (d : ReleaseDefinition) (parameters : Json) : List (String × Json) :=
  [("model_id", .str d.modelId), ("image_digest", .str d.imageDigest),
    ("execution_definition", i.computationDict), ("parameters", parameters)]

def Invocation.payload (i : Invocation) (d : ReleaseDefinition) (parameters : Json) : Json :=
  .obj (i.payloadFields d parameters)

section Payload
variable {d d' : ReleaseDefinition} {i i' : Invocation} {p p' : Json}

theorem fingerprintPayload_eq (h : Selects d p i) : fingerprintPayload d p = .ok (i.payload d p) :=
  bind_eq_ok.mpr ⟨i, selectedInvocation_ok.mpr h, rfl⟩

theorem plainItems_str (args : List String) : Json.PlainItems (args.map .str) := by
  induction args with
  | nil => trivial
  | cons arg args ih => exact ⟨trivial, ih⟩

theorem Invocation.payload_plain (i : Invocation) (d : ReleaseDefinition) (h : p.Plain) : (i.payload d p).Plain :=
  ⟨trivial, trivial, ⟨plainItems_str i.arguments, trivial, trivial, trivial⟩, h, trivial⟩

theorem fingerprint_eq (h : Selects d p i) (hp : p.Plain) :
    fingerprint d p = .ok (sha256Hex ((i.payload d p).dumps true false)) := by
  refine bind_eq_ok.mpr ⟨_, fingerprintPayload_eq h, ?_⟩
  rw [if_pos (i.payload_plain d hp).encodable]
  rfl

theorem orderedItems_str (args : List String) : Json.orderedItems (args.map .str) = args.map .str := by
  rw [Json.orderedItems_eq, List.map_map]
  rfl

theorem Invocation.computationDict_same : i.computationDict.Same i'.computationDict ↔
    i.arguments = i'.arguments ∧ i.workingDirectory = i'.workingDirectory ∧
      i.outputDirectory = i'.outputDirectory := by
  constructor
  · intro h
    have hkeys : ["arguments", "working_directory", "output_directory"].Nodup := by decide
    have hkeys : (i.computationFields.map Prod.fst).Nodup := hkeys
    obtain ⟨fields, hfields, -, hlookup⟩ := Json.Same.obj_left hkeys h
    obtain rfl := Json.obj.inj hfields
    have hargs := Option.some.inj (hlookup "arguments")
    have hwork := Option.some.inj (hlookup "working_directory")
    have hout := Option.some.inj (hlookup "output_directory")
    rw [Json.ordered, Json.ordered, orderedItems_str, orderedItems_str] at hargs
    have hstr : Function.Injective Json.str := fun _ _ => Json.str.inj
    exact ⟨hstr.list_map (Json.arr.inj hargs), Json.str.inj hwork, Json.str.inj hout⟩
  · rintro ⟨hargs, hwork, hout⟩
    have hdict : i.computationDict = i'.computationDict := by
      rw [computationDict, computationFields, hargs, hwork, hout]
      rfl
    rw [hdict]
    exact .refl _

theorem Invocation.payload_same :
    (i.payload d p).Same (i'.payload d' p') ↔ SameComputation d d' i i' p p' := by
  constructor
  · intro h
    have hkeys : ["model_id", "image_digest", "execution_definition", "parameters"].Nodup := by decide
    have hkeys : ((i.payloadFields d p).map Prod.fst).Nodup := hkeys
    obtain ⟨fields, hfields, -, hlookup⟩ := Json.Same.obj_left hkeys h
    obtain rfl := Json.obj.inj hfields
    have hmodel := Option.some.inj (hlookup "model_id")
    have himage := Option.some.inj (hlookup "image_digest")
    have hexecution : i.computationDict.Same i'.computationDict :=
      Option.some.inj (hlookup "execution_definition")
    have hparameters : p.Same p' := Option.some.inj (hlookup "parameters")
    obtain ⟨hargs, hwork, hout⟩ := Invocation.computationDict_same.mp hexecution
    exact ⟨Json.str.inj hmodel, Json.str.inj himage, hargs, hwork, hout, hparameters⟩
  · rintro ⟨hmodel, himage, hargs, hwork, hout, hparameters⟩
    have hexecution := Invocation.computationDict_same.mpr ⟨hargs, hwork, hout⟩
    rw [Json.Same] at hexecution hparameters ⊢
    simp only [payload, payloadFields, Json.ordered, Json.orderedFields, hmodel, himage, hexecution, hparameters]

end Payload

theorem sha256Hex_eq_iff {text text' : List Char} (h : NoCollision text text') :
    sha256Hex text = sha256Hex text' ↔ text = text' := by
  constructor
  · intro he
    exact utf8_injective (h (sha256Hex_injOn he))
  · exact congrArg sha256Hex

/-- Without the mode there is no match, whatever the fingerprint. -/
theorem matchesFingerprint_missing {d : ReleaseDefinition} {p : Json} {mode : String}
    (hp : p.get? "mode" = some (.str mode)) (hd : d.executionDefinition.mode? mode = none) (expected : String) :
    matchesFingerprint d p expected = .ok false := by
  have hkeys : ¬ [("mode", Json.str mode)].map (·.1) ≠ ["mode"] := not_not.mpr rfl
  have hget : (Json.obj [("mode", .str mode)]).get? "mode" = some (.str mode) := rfl
  have hresolve : selectedInvocation d p = .error d.executionDefinition.unsupportedMode := by
    simp only [selectedInvocation, hp, ExecutionDefinition.resolve, ExecutionDefinition.prepareMode, if_neg hkeys,
      hget, hd, Option.isSome_none, Bool.false_eq_true, if_false]
    rfl
  have hfingerprint : fingerprint d p = .error d.executionDefinition.unsupportedMode := by
    rw [fingerprint, fingerprintPayload, hresolve]
    rfl
  rw [matchesFingerprint, hfingerprint]
  rfl

/-- The canonical texts of two computations are equal exactly when the computations are, and fingerprints
match likewise as long as the hash tells the texts apart. -/
theorem fingerprint_identity :
    (∀ (d d' : ReleaseDefinition) (i i' : Invocation) (p p' : Json), p.Plain → p'.Plain →
      Selects d p i → Selects d' p' i' →
      ∃ payload payload', fingerprintPayload d p = .ok payload ∧ fingerprintPayload d' p' = .ok payload' ∧
        let text := payload.dumps true false
        let text' := payload'.dumps true false
        fingerprint d p = .ok (sha256Hex text) ∧ fingerprint d' p' = .ok (sha256Hex text') ∧
        (text = text' ↔ SameComputation d d' i i' p p') ∧
        (NoCollision text text' → ∃ same, matchesFingerprint d p (sha256Hex text') = .ok same ∧
          (same = true ↔ SameComputation d d' i i' p p'))) ∧
    (∀ (d : ReleaseDefinition) (p : Json) (mode expected : String), p.get? "mode" = some (.str mode) →
      d.executionDefinition.mode? mode = none → matchesFingerprint d p expected = .ok false) := by
  refine ⟨?_, fun d p mode expected hp hd => matchesFingerprint_missing hp hd expected⟩
  intro d d' i i' p p' hp hp' hi hi'
  have htext : (i.payload d p).dumps true false = (i'.payload d' p').dumps true false ↔
      SameComputation d d' i i' p p' := by
    rw [Json.canonicalText_iff (i.payload_plain d hp) (i'.payload_plain d' hp'), Invocation.payload_same]
  refine ⟨_, _, fingerprintPayload_eq hi, fingerprintPayload_eq hi', fingerprint_eq hi hp,
    fingerprint_eq hi' hp', htext, fun hno =>
      ⟨sha256Hex ((i.payload d p).dumps true false) = sha256Hex ((i'.payload d' p').dumps true false), ?_, ?_⟩⟩
  · rw [matchesFingerprint, fingerprint_eq hi hp]
    rfl
  · rw [decide_eq_true_iff, sha256Hex_eq_iff hno, htext]

section Example

def solve (requirements : OutputRequirements) : Invocation := ⟨["solve"], "/work", "/out", requirements⟩

def solver (displayName : String) (requirements : OutputRequirements) : ReleaseDefinition :=
  ⟨"solver", displayName, "image@sha256:0", ⟨[("fast", solve requirements)]⟩⟩

/-- A release renamed, with an output required, and the parameters in another order. -/
theorem fingerprint_identity_renamed : ∃ payload payload',
    fingerprintPayload (solver "Solver" ⟨[]⟩) (.obj [("mode", .str "fast"), ("grid", .str "fine")]) = .ok payload ∧
    fingerprintPayload (solver "New" ⟨["log.txt"]⟩) (.obj [("grid", .str "fine"), ("mode", .str "fast")]) =
      .ok payload' ∧
    payload.dumps true false = payload'.dumps true false := by
  obtain ⟨payload, payload', hpayload, hpayload', -, -, htext, -⟩ :=
    fingerprint_identity.1 (solver "Solver" ⟨[]⟩) (solver "New" ⟨["log.txt"]⟩) (solve ⟨[]⟩) (solve ⟨["log.txt"]⟩)
      (.obj [("mode", .str "fast"), ("grid", .str "fine")]) (.obj [("grid", .str "fine"), ("mode", .str "fast")])
      ⟨trivial, trivial, trivial⟩ ⟨trivial, trivial, trivial⟩ ⟨"fast", rfl, rfl⟩ ⟨"fast", rfl, rfl⟩
  have hsame : (Json.obj [("mode", .str "fast"), ("grid", .str "fine")]).Same
      (.obj [("grid", .str "fine"), ("mode", .str "fast")]) := by decide +kernel
  exact ⟨payload, payload', hpayload, hpayload', htext.mpr ⟨rfl, rfl, rfl, rfl, rfl, hsame⟩⟩

end Example
end Mic3
