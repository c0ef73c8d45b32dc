import Mathlib.Algebra.Field.Rat
import Mic3.Fingerprint

/-! A run's Job: the name and values it is rendered from, the contract its object must contain, what
the worker concludes from it, and the check of the files it left. -/
namespace Mic3

structure ExecutionWork where
  id : UUID
  release : ReleaseDefinition
  parameters : Json
  fingerprint : String
  «namespace» : Option String
  jobUid : Option String

/-- The text before the first `sep`, and the text after it. -/
def breakOn (sep : List Char) : List Char → Option (List Char × List Char)
  | [] => none
  | c :: rest =>
    if sep.isPrefixOf (c :: rest) then some ([], (c :: rest).drop sep.length)
    else (breakOn sep rest).map fun (before, after) => (c :: before, after)

/-- `image_digest.split("@sha256:")[1]`. -/
def digestOf (image : String) : Except Raised String :=
  let sep := "@sha256:".toList
  match breakOn sep image.toList with
  | none => throw .indexError
  | some (_, rest) => pure (String.ofList ((breakOn sep rest).elim rest (·.1)))

namespace ExecutionWork

def jobName (work : ExecutionWork) : String := "mic3-run-" ++ work.id.str

def outputPrefix (work : ExecutionWork) : Except Raised String := do
  let sha ← digestOf work.release.imageDigest
  return work.release.modelId ++ "/sha256-" ++ sha ++ "/" ++ work.id.str ++ "/outputs/"

end ExecutionWork

/-- A Job object with the fields the worker reads; conditions are pairs of type and status. -/
structure JobObject where
  uid : String
  labels : Json
  annotations : Json
  spec : Json
  conditions : List (String × String)
  deriving DecidableEq

/-- Namespace and name of a Job. -/
abbrev JobKey := String × String

/-- A container status with the exit code of a terminated container. -/
structure ContainerStatus where
  name : String
  exitCode : Option ℤ

structure Pod where
  owners : List String
  initContainerStatuses : List ContainerStatus
  containerStatuses : List ContainerStatus

/-- The `helm` binary over a chart with its operational values: the documents it renders for a name,
a namespace and the values on standard input. -/
abbrev Helm := ℕ → String → String → Json → Option (List Json)

def modelJobValues (release : ReleaseDefinition) (parameters : Json) (runId : UUID) :
    Except Raised Json := do
  let execution := release.executionDefinition
  let mode ← execution.prepareMode parameters
  let effective := ExecutionDefinition.modeParameters mode
  let invocation ← execution.resolve effective
  let runFingerprint ← fingerprint release effective
  return .obj [("runId", .str runId.str), ("runFingerprint", .str runFingerprint), ("model", .obj [
    ("id", .str release.modelId), ("mode", .str mode), ("image", .str release.imageDigest),
    ("command", .arr (invocation.arguments.map .str)), ("workingDir", .str invocation.workingDirectory),
    ("outputPath", .str invocation.outputDirectory)])]

/-- `HelmJobRenderer.render`. -/
def render (helm : Helm) (chart : ℕ) («namespace» : String) (work : ExecutionWork) :
    Except Raised Json := do
  let values ← modelJobValues work.release work.parameters work.id
  match helm chart work.jobName «namespace» values with
  | none => throw (.infrastructureUnavailable "Job rendering failed.")
  | some [document] =>
    if document.get? "kind" = some (.str "Job") then return document
    else throw (.infrastructureUnavailable "Expected one rendered Job.")
  | some _ => throw (.infrastructureUnavailable "Expected one rendered Job.")

theorem render_noFailure (helm : Helm) (chart : ℕ) («namespace» : String) (work : ExecutionWork) :
    NoFailure (render helm chart «namespace» work) := by
  have hvalues : NoFailure (modelJobValues work.release work.parameters work.id) :=
    .bind (ExecutionDefinition.prepareMode_noFailure _ _) fun _ =>
      .bind (ExecutionDefinition.resolve_noFailure _ _) fun _ =>
        .bind (fingerprint_noFailure _ _) fun _ => .pure _
  refine .bind hvalues fun values => ?_
  split
  · exact .throw (fun _ _ he => by cases he)
  · split
    · exact .pure _
    · exact .throw (fun _ _ he => by cases he)
  · exact .throw (fun _ _ he => by cases he)

def digitsValue (cs : List Char) : ℕ := cs.foldl (fun n c => 10 * n + (c.toNat - 48)) 0

/-- The value of a decimal numeral. -/
def decimalValue (text : String) : Option ℚ :=
  let (sign, cs) := match text.toList with
    | '-' :: cs => ((-1 : ℚ), cs)
    | cs => (1, cs)
  let (whole, rest) := cs.span Char.isDigit
  let (fraction, rest) := match rest with
    | '.' :: rest => rest.span Char.isDigit
    | rest => ([], rest)
  let exponent : Option ℤ := match rest with
    | [] => some 0
    | 'e' :: '-' :: ds => some (-(digitsValue ds))
    | 'e' :: '+' :: ds => some (digitsValue ds)
    | _ => none
  if whole = [] then none
  else exponent.map fun e => sign * digitsValue (whole ++ fraction) * (10 : ℚ) ^ (e - (fraction.length : ℤ))

/-- The nearest integer, and of two that are as near the even one. -/
def roundHalfEven (q : ℚ) : ℤ :=
  let below := q.floor
  let rest := q - below
  if rest < 1 / 2 ∨ rest = 1 / 2 ∧ below % 2 = 0 then below else below + 1

/-- The binary64 number that is nearest to one of its range. -/
def binary64 (q : ℚ) : ℚ :=
  -- The exponent of the first bit is `top`, or the one before.
  let top : ℤ := (q.num.natAbs.log2 : ℤ) - q.den.log2
  let exponent := if |q| < (2 : ℚ) ^ top then top - 1 else top
  let ulp := (2 : ℚ) ^ max (exponent - 52) (-1074)
  roundHalfEven (q / ulp) * ulp

/-- The value of a finite float: the text Python prints for it is the shortest one that rounds to it. -/
def floatValue (repr : String) : Option ℚ := (decimalValue repr).map binary64

def numberValue : Json → Option ℚ
  | .bool b => some (if b then 1 else 0)
  | .int n => some n
  | .float repr => floatValue repr
  | _ => none

/-- Python's `==` where the right side is no container: numbers of any type are compared by value. -/
def scalarEq (actual expected : Json) : Bool :=
  match numberValue actual, numberValue expected with
  | some x, some y => x = y
  | _, _ => actual = expected && expected ≠ .float "nan"

example : (scalarEq (.int (10 ^ 23)) (.float "1e+23"), scalarEq (.int 99999999999999991611392) (.float "1e+23")) =
    (false, true) := by decide +kernel

mutual
/-- Whether `actual` is `expected` with entries added to its objects. -/
def contains (actual expected : Json) : Bool :=
  match expected with
  | .obj fields => match actual with
    | .obj _ => containsFields actual fields
    | _ => false
  | .arr items => match actual with
    | .arr actualItems => containsItems actualItems items
    | _ => false
  | e => scalarEq actual e

def containsFields (actual : Json) : List (String × Json) → Bool
  | [] => true
  | (k, v) :: fields =>
    (match actual.get? k with
      | some a => contains a v
      | none => false) && containsFields actual fields

def containsItems (actual : List Json) : List Json → Bool
  | [] => actual = []
  | e :: es => match actual with
    | a :: as => contains a e && containsItems as es
    | [] => false
end

def subscript (value : Json) (key : String) : Except Raised Json :=
  match value.get? key with
  | some v => pure v
  | none => throw .keyError

/-- Whether labels, annotations and spec of the object contain the rendered ones. -/
def containsContract (actual : JobObject) (expected : Json) : Except Raised Bool := do
  let wanted ← subscript expected "metadata"
  if ¬ contains actual.labels (← subscript wanted "labels") then return false
  if ¬ contains actual.annotations (← subscript wanted "annotations") then return false
  return contains actual.spec (← subscript expected "spec")

/-- Python's truth of an optional text. -/
def truthy (text : Option String) : Bool := text.any (· ≠ "")

def verifyContract (work : ExecutionWork) (actual : JobObject) (expected : Json) :
    Except Raised Unit := do
  if truthy work.jobUid ∧ some actual.uid ≠ work.jobUid then
    throw (.executionFailure "job_identity_conflict" [])
  if ¬ (← containsContract actual expected) then
    throw (.executionFailure "job_identity_conflict" [])

theorem containsContract_noFailure (actual : JobObject) (expected : Json) :
    NoFailure (containsContract actual expected) := by
  have hsub (value : Json) (key : String) : NoFailure (subscript value key) := by
    unfold subscript
    split
    · exact .pure _
    · exact .throw (fun _ _ he => by cases he)
  refine .bind (hsub _ _) fun wanted => .bind (hsub _ _) fun labels => ?_
  split
  · exact .pure _
  · refine .bind (hsub _ _) fun annotations => ?_
    split
    · exact .pure _
    · exact .bind (hsub _ _) fun spec => .pure _

/-- The one `ExecutionFailure` of the contract check. -/
theorem verifyContract_error {work : ExecutionWork} {actual : JobObject} {expected : Json} {e : Raised}
    (h : verifyContract work actual expected = .error e) :
    e = .executionFailure "job_identity_conflict" [] ∨
      ∀ code artifacts, e ≠ .executionFailure code artifacts := by
  unfold verifyContract at h
  split at h
  · exact .inl (Except.error.inj h).symm
  · cases hc : containsContract actual expected with
    | error err =>
      rw [hc] at h
      obtain rfl := Except.error.inj h
      exact .inr fun code artifacts he => containsContract_noFailure actual expected code artifacts (he ▸ hc)
    | ok contained =>
      rw [hc] at h
      cases contained with
      | true => contradiction
      | false => exact .inl (Except.error.inj h).symm

/-- The contract check passed. -/
theorem verifyContract_ok {work : ExecutionWork} {actual : JobObject} {expected : Json}
    (h : verifyContract work actual expected = .ok ()) :
    (truthy work.jobUid = true → some actual.uid = work.jobUid) ∧
      containsContract actual expected = .ok true := by
  unfold verifyContract at h
  split at h
  · contradiction
  · rename_i hid
    cases hc : containsContract actual expected with
    | error err => rw [hc] at h; contradiction
    | ok contained =>
      rw [hc] at h
      cases contained with
      | false => contradiction
      | true => exact ⟨fun ht => by_contra fun hne => hid ⟨ht, hne⟩, rfl⟩

/-- A condition of the object whose status is `True`. -/
def JobObject.holds (job : JobObject) (condition : String) : Bool := (condition, "True") ∈ job.conditions

def failureByContainer : List (String × String) := [("model", "model_failed"), ("copy", "upload_failed")]

/-- `_failure_reason`: the last failed container of a pod the Job owns decides. -/
def failureReason (uid : String) (pods : List Pod) : String :=
  ((pods.filter fun pod => uid ∈ pod.owners).flatMap fun pod =>
    pod.initContainerStatuses ++ pod.containerStatuses).foldl
      (fun reason container =>
        if container.exitCode = none ∨ container.exitCode = some 0 then reason
        else (failureByContainer.lookup container.name).getD "job_failed")
      "job_failed"

theorem failureReason_mem (uid : String) (pods : List Pod) :
    failureReason uid pods ∈ ["model_failed", "upload_failed", "job_failed"] := by
  unfold failureReason
  generalize ((pods.filter fun pod => uid ∈ pod.owners).flatMap fun pod =>
    pod.initContainerStatuses ++ pod.containerStatuses) = statuses
  have hstep (reason : String) (hr : reason ∈ ["model_failed", "upload_failed", "job_failed"]) :
      statuses.foldl (fun reason container =>
        if container.exitCode = none ∨ container.exitCode = some 0 then reason
        else (failureByContainer.lookup container.name).getD "job_failed") reason ∈
          ["model_failed", "upload_failed", "job_failed"] := by
    induction statuses generalizing reason with
    | nil => exact hr
    | cons container statuses ih =>
      refine ih _ ?_
      dsimp only
      split
      · exact hr
      · simp only [failureByContainer, List.lookup_cons, List.lookup_nil]
        split
        · decide
        · split <;> decide
  exact hstep _ (by decide)

/-- `sizes.get(key, 0)` of the listing's dict: the last object of a key counts. -/
def sizeOf (artifacts : List Artifact) (key : String) : ℤ :=
  ((artifacts.reverse.find? fun a => a.objectKey = key).map Artifact.sizeBytes).getD 0

def missesRequired (outputPrefix : String) (required : List String) (artifacts : List Artifact) : Bool :=
  required.any fun path => sizeOf artifacts (outputPrefix ++ path) ≤ 0

def hasOutput (artifacts : List Artifact) : Bool := artifacts.any fun a => 0 < a.sizeBytes

theorem sizeOf_pos {artifacts : List Artifact} {key : String} (h : 0 < sizeOf artifacts key) :
    ∃ a ∈ artifacts, a.objectKey = key ∧ 0 < a.sizeBytes := by
  unfold sizeOf at h
  cases hf : artifacts.reverse.find? fun a => a.objectKey = key with
  | none => simp [hf] at h
  | some a =>
    refine ⟨a, List.mem_reverse.mp (List.mem_of_find?_eq_some hf), ?_, by simpa [hf] using h⟩
    simpa using List.find?_some hf

/-- With distinct keys an object has the size that is looked up under its key. -/
theorem sizeOf_mem {artifacts : List Artifact} (hn : (artifacts.map Artifact.objectKey).Nodup)
    {a : Artifact} (ha : a ∈ artifacts) : sizeOf artifacts a.objectKey = a.sizeBytes := by
  unfold sizeOf
  have hfind : artifacts.reverse.find? (fun b => b.objectKey = a.objectKey) = some a := by
    cases hf : artifacts.reverse.find? fun b => b.objectKey = a.objectKey with
    | none => simpa using List.find?_eq_none.mp hf a (List.mem_reverse.mpr ha)
    | some b =>
      have hkey : b.objectKey = a.objectKey := by simpa using List.find?_some hf
      have hb : b ∈ artifacts := List.mem_reverse.mp (List.mem_of_find?_eq_some hf)
      rw [List.inj_on_of_nodup_map hn hb ha hkey]
  simp [hfind]

theorem missesRequired_false {outputPrefix : String} {required : List String} {artifacts : List Artifact}
    (h : missesRequired outputPrefix required artifacts = false) :
    ∀ path ∈ required, ∃ a ∈ artifacts, a.objectKey = outputPrefix ++ path ∧ 0 < a.sizeBytes := by
  intro path hpath
  have hsize := List.any_eq_false.mp h path hpath
  exact sizeOf_pos (by simpa using hsize)

theorem missesRequired_true {outputPrefix : String} {required : List String} {artifacts : List Artifact}
    (hn : (artifacts.map Artifact.objectKey).Nodup)
    (h : missesRequired outputPrefix required artifacts = true) :
    ∃ path ∈ required, ∀ a ∈ artifacts, a.objectKey = outputPrefix ++ path → a.sizeBytes ≤ 0 := by
  obtain ⟨path, hpath, hsize⟩ := List.any_eq_true.mp h
  refine ⟨path, hpath, fun a ha hkey => ?_⟩
  rw [← sizeOf_mem hn ha, hkey]
  simpa using hsize

/-- `VerifyOutputs.collect`, over the listing of the run's output prefix. -/
def collect (work : ExecutionWork) (outputPrefix : String) (artifacts : List Artifact) :
    Except Raised (List Artifact) := do
  let invocation ← work.release.executionDefinition.resolve work.parameters
  if missesRequired outputPrefix invocation.outputRequirements.requiredFiles artifacts then
    throw (.executionFailure "required_outputs_missing" artifacts)
  else if ¬ hasOutput artifacts then throw (.executionFailure "outputs_empty" artifacts)
  else return artifacts

theorem collect_cases (work : ExecutionWork) (outputPrefix : String) (artifacts : List Artifact) :
    (∃ err, collect work outputPrefix artifacts = .error err ∧
      ∀ code artifacts, err ≠ .executionFailure code artifacts) ∨
    ∃ invocation, work.release.executionDefinition.resolve work.parameters = .ok invocation ∧
      let missing := missesRequired outputPrefix invocation.outputRequirements.requiredFiles artifacts
      (missing = true ∧ collect work outputPrefix artifacts =
          .error (.executionFailure "required_outputs_missing" artifacts) ∨
        missing = false ∧ hasOutput artifacts = false ∧ collect work outputPrefix artifacts =
          .error (.executionFailure "outputs_empty" artifacts) ∨
        missing = false ∧ hasOutput artifacts = true ∧
          collect work outputPrefix artifacts = .ok artifacts) := by
  unfold collect
  cases hr : work.release.executionDefinition.resolve work.parameters with
  | error err =>
    refine .inl ⟨err, rfl, fun code artifacts he => ?_⟩
    exact ExecutionDefinition.resolve_noFailure _ _ code artifacts (he ▸ hr)
  | ok invocation =>
    refine .inr ⟨invocation, rfl, ?_⟩
    cases hm : missesRequired outputPrefix invocation.outputRequirements.requiredFiles artifacts with
    | true => exact .inl ⟨rfl, if_pos hm⟩
    | false =>
      have hpass : ¬ missesRequired outputPrefix invocation.outputRequirements.requiredFiles artifacts =
          true := Bool.eq_false_iff.mp hm
      cases ho : hasOutput artifacts with
      | true => exact .inr (.inr ⟨rfl, rfl, if_neg hpass⟩)
      | false =>
        exact .inr (.inl ⟨rfl, rfl, if_neg hpass⟩)

/-- Whatever the check says, it says it of the whole listing. -/
theorem collect_ok {work : ExecutionWork} {outputPrefix : String} {artifacts found : List Artifact}
    (h : collect work outputPrefix artifacts = .ok found) : found = artifacts := by
  rcases collect_cases work outputPrefix artifacts with
    ⟨err, he, -⟩ | ⟨invocation, -, ⟨-, he⟩ | ⟨-, -, he⟩ | ⟨-, -, he⟩⟩ <;> rw [he] at h
  · contradiction
  · contradiction
  · contradiction
  · exact (Except.ok.inj h).symm

theorem collect_failure {work : ExecutionWork} {outputPrefix code : String}
    {artifacts found : List Artifact}
    (h : collect work outputPrefix artifacts = .error (.executionFailure code found)) :
    found = artifacts ∧ (code = "required_outputs_missing" ∨ code = "outputs_empty") := by
  rcases collect_cases work outputPrefix artifacts with
    ⟨err, he, hne⟩ | ⟨invocation, -, ⟨-, he⟩ | ⟨-, -, he⟩ | ⟨-, -, he⟩⟩ <;> rw [he] at h
  · exact absurd (Except.error.inj h) (hne _ _)
  · obtain ⟨rfl, rfl⟩ := Raised.executionFailure.inj (Except.error.inj h)
    exact ⟨rfl, .inl rfl⟩
  · obtain ⟨rfl, rfl⟩ := Raised.executionFailure.inj (Except.error.inj h)
    exact ⟨rfl, .inr rfl⟩
  · contradiction

end Mic3
