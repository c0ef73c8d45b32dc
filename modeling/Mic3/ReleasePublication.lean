import Mic3.Catalog
import Mic3.Versions

/-! `publish` of the release tooling: the three images of a version are pushed to the registry by Docker commands,
each of which may fail, and a record is written for what was pushed. -/
namespace Mic3
open Regex

/-- `REPOSITORIES`, in order. -/
def repositories : List (String × String) :=
  [("api", "ghcr.io/transience-mic3/mic3-api"), ("publisher", "ghcr.io/transience-mic3/mic3-publisher"),
    ("worker", "ghcr.io/transience-mic3/mic3-worker")]

/-- `DIGEST`. -/
def digestPattern : Regex Char := .seq (literal "sha256:".toList) (times (.cls isLowerHex) 64)

/-- `v(0|[1-9][0-9]*)\.(0|[1-9][0-9]*)\.(0|[1-9][0-9]*)`. -/
def tagPattern : Regex Char := .seq (.cls (· = 'v')) dotted

def validateIdentity (tag commit : String) : Except ScriptError Unit := do
  refuse (!tagPattern.fullmatch tag.toList) "Invalid stable release tag"
  refuse (!(times (.cls isLowerHex) 40).fullmatch commit.toList) "Invalid source commit"

/-- `tag[1:]`. -/
def tagVersion (tag : String) : String := String.ofList (tag.toList.drop 1)

/-- `f'{repository}:{version}'`. -/
def reference (repository version : String) : String := repository ++ ":" ++ version

/-- An image's reference, by tag and digest. -/
def refPattern (repository tag : String) : Regex Char :=
  .seq (literal (reference repository (tagVersion tag) ++ "@").toList) digestPattern

/-- The check of one image of a record. -/
def validateImage (tag : String) (entry : String × Json) : Except ScriptError Unit := do
  let repository ← (repositories.lookup entry.1).elim (.error .keyError) .ok
  refuse (entry.2.get? "image_repository" ≠ some (.str repository)) ("Unexpected " ++ entry.1 ++ " repository")
  refuse (match entry.2.get? "image_ref" with
    | some (.str ref) => !(refPattern repository tag).fullmatch ref.toList
    | _ => true) ("Invalid " ++ entry.1 ++ " immutable reference")

/-- The images of a record, by its format. -/
def recordImages (record : Json) : Except ScriptError (List (String × Json)) := do
  match ← record.getD "format_version" .null with
  | .int 1 =>
    let repository ← record.getD "image_repository" .null
    let ref ← record.getD "image_ref" .null
    return [("api", .obj [("image_repository", repository), ("image_ref", ref)])]
  | .int 2 =>
    match ← record.getD "images" .null with
    | .obj images =>
      if images.map Prod.fst ⊆ repositories.map Prod.fst ∧ repositories.map Prod.fst ⊆ images.map Prod.fst
      then return images
      else throw (.valueError "All three images are required")
    | _ => throw (.valueError "All three images are required")
  | .int _ => throw (.valueError "Unsupported record format")
  | _ => throw (.valueError "Invalid record format")

/-- `validate(record, tag, commit)`. -/
def validateRecord (record : Json) (tag commit : String) : Except ScriptError (List (String × Json)) := do
  validateIdentity tag commit
  let recordTag ← record.getD "release_tag" .null
  let recordCommit ← record.getD "commit" .null
  refuse (recordTag ≠ .str tag || recordCommit ≠ .str commit) "Release tag/source mismatch"
  let images ← recordImages record
  images.forM (validateImage tag)
  return images

/-- The commands that the tooling runs. -/
inductive Command where
  | manifestInspect (ref : String)
  | imageInspect (ref : String)
  | push (ref : String)
  deriving DecidableEq

/-- `text.strip()`. -/
def strip (text : String) : List Char :=
  ((text.toList.dropWhile isSpace).reverse.dropWhile isSpace).reverse

/-- The standard error of a lookup that confirms an absence. -/
def confirmsAbsence (ref stderr : String) : Bool :=
  strip stderr = "manifest unknown".toList || strip stderr = ("no such manifest: " ++ ref).toList

/-- A failure that says nothing of a reference. -/
structure Outage where
  stderr : String
  silent : ∀ ref, confirmsAbsence ref stderr = false

/-- What a command meets: whether it fails and how, and what it would print. -/
structure Weather where
  outage : Option Outage
  /-- Whether a push that fails took effect all the same. -/
  effective : Bool
  /-- The digest under which a push stores its image. -/
  digest : String
  /-- The words for an absent reference. -/
  unknown : Bool
  /-- The JSON value on the standard output, or what its decoder says. -/
  output : Except String Json

/-- What a reference resolves to. -/
abbrev Registry := String → Option String

/-- A pushed image is found under its tag and under its digest. -/
def Registry.store (registry : Registry) (ref digest : String) : Registry :=
  Function.update (Function.update registry (ref ++ "@" ++ digest) (some digest)) ref (some digest)

/-- The answer to a command, and the registry after it. -/
def Command.perform (weather : Weather) (registry : Registry) : Command → Except String (Except String Json) × Registry
  | .manifestInspect ref => match weather.outage, registry ref with
    | some outage, _ => (.error outage.stderr, registry)
    | none, some _ => (.ok weather.output, registry)
    | none, none => (.error (if weather.unknown then "manifest unknown\n" else "no such manifest: " ++ ref ++ "\n"), registry)
  | .imageInspect _ => match weather.outage with
    | some outage => (.error outage.stderr, registry)
    | none => (.ok weather.output, registry)
  | .push ref => match weather.outage with
    | some outage =>
      (.error outage.stderr, if weather.effective then registry.store ref weather.digest else registry)
    | none => (.ok weather.output, registry.store ref weather.digest)

/-- A command that was run, its answer, and the registry it left. -/
structure CommandRun where
  command : Command
  answer : Except String (Except String Json)
  registry : Registry

/-- The registry, and the commands that were run so far. -/
structure DockerState where
  registry : Registry
  runs : List CommandRun

/-- Code that runs Docker commands. -/
def Docker (α : Type) : Type := DockerState → Except ScriptError α × DockerState

namespace Docker
variable {α β : Type}

instance : Monad Docker where
  pure a s := (.ok a, s)
  bind x f s :=
    match x s with
    | (.ok a, s) => f a s
    | (.error e, s) => (.error e, s)

def lift (x : Except ScriptError α) : Docker α := fun s => (x, s)

/-- A command with its answer, in the weather of its turn. -/
def ask (weather : ℕ → Weather) (command : Command) : Docker (Except String (Except String Json)) := fun s =>
  let (answer, registry) := command.perform (weather s.runs.length) s.registry
  (.ok answer, ⟨registry, s.runs ++ [⟨command, answer, registry⟩]⟩)

/-- `run`, which raises where the command fails. -/
def run (weather : ℕ → Weather) (command : Command) : Docker (Except String Json) := do
  match ← ask weather command with
  | .ok output => return output
  | .error stderr => lift (.error (.calledProcessError stderr))

/-- `json.loads(run('docker', 'image', 'inspect', ref))[0]`. -/
def inspect (weather : ℕ → Weather) (ref : String) : Docker Json := do
  match ← run weather (.imageInspect ref) with
  | .ok value => lift value.first
  | .error message => lift (.error (.valueError message))

end Docker

section Tooling
variable (weather : ℕ → Weather) (tag commit : String)
open Docker

/-- The check of one tag before any push. -/
def preflightOne (version repository : String) : Docker Unit := do
  match ← ask weather (.manifestInspect (reference repository version)) with
  | .ok _ => lift (.error (.valueError
      "Version image exists; recover release.json from verified evidence or use a new version"))
  | .error stderr =>
    if confirmsAbsence (reference repository version) stderr then return ()
    else lift (.error (.runtimeError "Registry lookup failed; publication refused"))

def preflight (version : String) : Docker Unit := repositories.forM fun e => preflightOne weather version e.2

/-- Whether a local image is the one to publish. -/
def isArtifact (image : Json) : Except ScriptError Bool := do
  let config ← image.item "Config"
  let labels := (← config.getD "Labels" .null).orElse (.obj [])
  let os ← image.item "Os"
  let architecture ← image.item "Architecture"
  if os ≠ .str "linux" ∨ architecture ≠ .str "amd64" then return false
  else if (← labels.getD "org.opencontainers.image.revision" .null) ≠ .str commit then return false
  else return (← labels.getD "org.opencontainers.image.version" .null) = .str (tagVersion tag)

/-- The check of one local image. -/
def checkLocal (e : String × String) : Docker Unit := do
  let image ← inspect weather (reference e.2 (tagVersion tag))
  lift do refuse (!(← isArtifact tag commit image)) ("Incorrect local " ++ e.1 ++ " artifact")

/-- `value.removeprefix(repository+'@')` of the values that start with it. -/
def repoDigest (repository : String) : Json → Except ScriptError (Option String)
  | .str value =>
    if (repository ++ "@").toList <+: value.toList then
      .ok (some (String.ofList (value.toList.drop (repository ++ "@").length)))
    else .ok none
  | _ => .error .attributeError

/-- The set of digests that an image has in a repository. -/
def publishedDigests (repository : String) (image : Json) : Except ScriptError (List String) := do
  let values ← (← image.getD "RepoDigests" (.arr [])).iterate
  return (← values.mapM (repoDigest repository)).reduceOption.dedup

/-- The entry of a record for a pushed image. -/
def recordImage (repository digest : String) : Json :=
  .obj [("image_repository", .str repository),
    ("image_ref", .str (reference repository (tagVersion tag) ++ "@" ++ digest))]

/-- The digest that a record is written for. -/
def soleDigest (e : String × String) (image : Json) : Except ScriptError String := do
  match ← publishedDigests e.2 image with
  | [digest] =>
    if digestPattern.fullmatch digest.toList then return digest
    else .error (.valueError ("Missing or ambiguous published " ++ e.1 ++ " digest"))
  | _ => .error (.valueError ("Missing or ambiguous published " ++ e.1 ++ " digest"))

/-- One push, and the digest it is found under. -/
def pushImage (e : String × String) : Docker (String × Json) := do
  let _ ← run weather (.push (reference e.2 (tagVersion tag)))
  let image ← inspect weather (reference e.2 (tagVersion tag))
  let digest ← lift (soleDigest e image)
  return (e.1, recordImage tag e.2 digest)

/-- The loop of pushes. -/
def pushImages : List (String × String) → Docker (List (String × Json))
  | [] => return []
  | e :: es => do
    let image ← pushImage weather tag e
    let images ← pushImages es
    return image :: images

def releaseRecord (images : List (String × Json)) : Json :=
  .obj [("format_version", .int 2), ("release_tag", .str tag), ("commit", .str commit), ("images", .obj images)]

/-- The lookup of one reference of a record. -/
def verifyImage (e : String × Json) : Docker Unit := do
  match ← lift (e.2.item "image_ref") with
  | .str ref => do
    let _ ← run weather (.manifestInspect ref)
  | _ => lift (.error .typeError)

def verifyRemote (images : List (String × Json)) : Docker Unit := images.forM (verifyImage weather)

def publish : Docker Json := do
  lift (validateIdentity tag commit)
  preflight weather (tagVersion tag)
  repositories.forM (checkLocal weather tag commit)
  let images ← pushImages weather tag repositories
  let images' ← lift (validateRecord (releaseRecord tag commit images) tag commit)
  verifyRemote weather images'
  return releaseRecord tag commit images

/-- One attempt after the other; what an attempt returns or raises is not seen by the next one. -/
def publishAll : List (String × String) → DockerState → DockerState
  | [], s => s
  | (tag, commit) :: attempts, s => publishAll attempts (publish weather tag commit s).2

end Tooling

/-- The only commands that change the registry. -/
def Command.isPush : Command → Bool
  | .push _ => true
  | _ => false

/-- Runs of commands in a row, each in some weather. -/
inductive Ran : Registry → List CommandRun → Registry → Prop
  | nil (registry : Registry) : Ran registry [] registry
  | cons {registry registry' : Registry} {c : CommandRun} {runs : List CommandRun} (weather : Weather)
      (h : c.command.perform weather registry = (c.answer, c.registry)) (rest : Ran c.registry runs registry') :
      Ran registry (c :: runs) registry'

/-- What some code did: it ran these commands. -/
structure Did (s s' : DockerState) (runs : List CommandRun) : Prop where
  log : s'.runs = s.runs ++ runs
  ran : Ran s.registry runs s'.registry

section Runs
variable {registry registry' registry'' : Registry} {runs runs' : List CommandRun} {s s₁ s' : DockerState}
  {α β : Type} {x : Docker α} {f : α → Docker β} {r : Except ScriptError β} {ref t : String} {c : Command}
  {weather : ℕ → Weather}

theorem Ran.append (h : Ran registry runs registry') (h' : Ran registry' runs' registry'') :
    Ran registry (runs ++ runs') registry'' := by
  induction h with
  | nil => exact h'
  | cons weather h rest ih => exact .cons weather h (ih h')

theorem Did.refl (s : DockerState) : Did s s [] := ⟨(List.append_nil _).symm, .nil _⟩

theorem Did.trans (h : Did s s₁ runs) (h' : Did s₁ s' runs') : Did s s' (runs ++ runs') :=
  ⟨by rw [h'.log, h.log, List.append_assoc], h.ran.append h'.ran⟩

/-- Lookups leave the registry as it is. -/
theorem Ran.quiet (h : Ran registry runs registry') (hq : ∀ c ∈ runs, c.command.isPush = false) :
    registry' = registry ∧ ∀ c ∈ runs, c.registry = registry := by
  induction h with
  | nil => exact ⟨rfl, List.forall_mem_nil _⟩
  | @cons registry registry' c runs weather h rest ih =>
    obtain ⟨hc, hq⟩ := List.forall_mem_cons.mp hq
    have hsame : c.registry = registry := by
      cases hcommand : c.command with
      | push ref => rw [hcommand] at hc; contradiction
      | imageInspect ref =>
        rw [hcommand, Command.perform] at h
        split at h <;> exact (Prod.mk.inj h).2.symm
      | manifestInspect ref =>
        rw [hcommand, Command.perform] at h
        split at h <;> exact (Prod.mk.inj h).2.symm
    obtain ⟨hregistry, hall⟩ := ih hq
    exact ⟨hregistry.trans hsame, List.forall_mem_cons.mpr ⟨hsame, fun c hc => (hall c hc).trans hsame⟩⟩

theorem Docker.bind_ok {a : α} (h : x s = (.ok a, s₁)) : (x >>= f) s = f a s₁ := by
  change (match x s with
    | (.ok a, s) => f a s
    | (.error e, s) => (.error e, s)) = f a s₁
  rw [h]

/-- A result comes from the first part that raises, or from the last one. -/
theorem Docker.bind_cases (h : (x >>= f) s = (r, s')) :
    (∃ a s₁, x s = (.ok a, s₁) ∧ f a s₁ = (r, s')) ∨ ∃ e, x s = (.error e, s') ∧ r = .error e := by
  change (match x s with
    | (.ok a, s) => f a s
    | (.error e, s) => (.error e, s)) = (r, s') at h
  split at h
  · next a s₁ hx => exact .inl ⟨a, s₁, hx, h⟩
  · next e s₁ hx =>
    obtain ⟨rfl, rfl⟩ := Prod.mk.inj h
    exact .inr ⟨e, hx, rfl⟩

theorem Docker.ask_did {answer : Except ScriptError (Except String (Except String Json))}
    (h : Docker.ask weather c s = (answer, s')) :
    ∃ a, answer = .ok a ∧ Did s s' [⟨c, a, s'.registry⟩] := by
  obtain ⟨rfl, rfl⟩ := Prod.mk.inj h
  exact ⟨_, rfl, rfl, .cons (weather s.runs.length) rfl (.nil _)⟩

theorem Docker.run_did {result : Except ScriptError (Except String Json)} (h : Docker.run weather c s = (result, s')) :
    ∃ a, Did s s' [⟨c, a, s'.registry⟩] ∧ ∀ output, result = .ok output → a = .ok output := by
  rcases bind_cases h with ⟨a, s₁, hask, h⟩ | ⟨e, hask, -⟩
  · obtain ⟨a', ha, hdid⟩ := ask_did hask
    obtain rfl := Except.ok.inj ha
    cases a with
    | ok output =>
      obtain ⟨rfl, rfl⟩ := Prod.mk.inj h
      exact ⟨_, hdid, fun output' h => congrArg _ (Except.ok.inj h)⟩
    | error stderr =>
      obtain ⟨rfl, rfl⟩ := Prod.mk.inj h
      exact ⟨_, hdid, fun _ h => by cases h⟩
  · obtain ⟨_, ha, -⟩ := ask_did hask
    contradiction

theorem Docker.inspect_did {result : Except ScriptError Json} (h : Docker.inspect weather ref s = (result, s')) :
    ∃ a, Did s s' [⟨.imageInspect ref, a, s'.registry⟩] ∧
      ∀ image, result = .ok image → ∃ value, a = .ok (.ok value) ∧ value.first = .ok image := by
  rcases bind_cases h with ⟨output, s₁, hrun, h⟩ | ⟨e, hrun, rfl⟩
  · obtain ⟨a, hdid, ha⟩ := run_did hrun
    cases output with
    | ok value =>
      obtain ⟨rfl, rfl⟩ := Prod.mk.inj h
      exact ⟨a, hdid, fun image himage => ⟨value, ha _ rfl, himage⟩⟩
    | error message =>
      obtain ⟨rfl, rfl⟩ := Prod.mk.inj h
      exact ⟨a, hdid, fun _ h => by cases h⟩
  · obtain ⟨a, hdid, -⟩ := run_did hrun
    exact ⟨a, hdid, fun _ h => by cases h⟩

/-- A loop of checks by lookups: all of them were made where the loop ends. -/
theorem Docker.forM_did {γ : Type} {body : γ → Docker Unit} {P : γ → CommandRun → Prop}
    {result : Except ScriptError Unit} {l : List γ} (hbody : ∀ e s result s', body e s = (result, s') → ∃ runs, Did s s' runs ∧
      (∀ c ∈ runs, c.command.isPush = false) ∧ (result = .ok () → ∃ c ∈ runs, P e c))
    (h : l.forM body s = (result, s')) :
    ∃ runs, Did s s' runs ∧ (∀ c ∈ runs, c.command.isPush = false) ∧ (result = .ok () → ∀ e ∈ l, ∃ c ∈ runs, P e c) := by
  induction l generalizing s with
  | nil =>
    obtain ⟨rfl, rfl⟩ := Prod.mk.inj h
    exact ⟨[], Did.refl s, List.forall_mem_nil _, fun _ => List.forall_mem_nil _⟩
  | cons e l ih =>
    rcases bind_cases h with ⟨_, s₁, hfirst, h⟩ | ⟨e, hfirst, rfl⟩
    · obtain ⟨runs, hdid, hquiet, hp⟩ := hbody _ _ _ _ hfirst
      obtain ⟨runs', hdid', hquiet', hall⟩ := ih h
      refine ⟨runs ++ runs', hdid.trans hdid', List.forall_mem_append.mpr ⟨hquiet, hquiet'⟩, fun hok => ?_⟩
      refine List.forall_mem_cons.mpr ⟨?_, fun e he => ?_⟩
      · obtain ⟨c, hc, hpc⟩ := hp rfl
        exact ⟨c, List.mem_append_left _ hc, hpc⟩
      · obtain ⟨c, hc, hpc⟩ := hall hok e he
        exact ⟨c, List.mem_append_right _ hc, hpc⟩
    · obtain ⟨runs, hdid, hquiet, -⟩ := hbody _ _ _ _ hfirst
      exact ⟨runs, hdid, hquiet, fun h => by cases h⟩

end Runs
/-- Every run keeps what a reference resolves to, once it resolves. -/
def Grows (t : String) : Registry → List CommandRun → Prop
  | _, [] => True
  | registry, c :: runs => (registry t ≠ none → c.registry t = registry t) ∧ Grows t c.registry runs

/-- How often a reference comes to resolve to something else. -/
def changes (t : String) : Registry → List CommandRun → ℕ
  | _, [] => 0
  | registry, c :: runs => (if c.registry t = registry t then 0 else 1) + changes t c.registry runs

section Registries
variable {registry registry' : Registry} {runs runs' : List CommandRun} {ref t digest stderr : String} {weather : Weather}
  {answer : Except String (Except String Json)}

theorem Grows.append (h : Grows t registry runs) (hran : Ran registry runs registry') (h' : Grows t registry' runs') :
    Grows t registry (runs ++ runs') := by
  induction hran with
  | nil => exact h'
  | cons weather hperform rest ih => exact ⟨h.1, ih h.2 h'⟩

theorem Ran.grows (h : Ran registry runs registry') (hq : ∀ c ∈ runs, c.command.isPush = false) :
    Grows t registry runs := by
  induction h with
  | nil => trivial
  | @cons registry registry' c runs weather hperform rest ih =>
    obtain ⟨hc, hq⟩ := List.forall_mem_cons.mp hq
    have hone : Ran registry [c] c.registry := .cons weather hperform (.nil _)
    have hsame := (hone.quiet (List.forall_mem_singleton.mpr hc)).1
    exact ⟨fun _ => congrFun hsame t, ih hq⟩

theorem changes_of_grows (h : Grows t registry runs) :
    changes t registry runs ≤ 1 ∧ (registry t ≠ none → changes t registry runs = 0) := by
  induction runs generalizing registry with
  | nil => exact ⟨Nat.zero_le _, fun _ => rfl⟩
  | cons c runs ih =>
    obtain ⟨hfirst, hrest⟩ := h
    obtain ⟨hle, hzero⟩ := ih hrest
    rw [changes]
    by_cases hsame : c.registry t = registry t
    · rw [if_pos hsame, Nat.zero_add]
      exact ⟨hle, fun hne => hzero (hsame ▸ hne)⟩
    · -- A reference that changes did not resolve before, does so now, and never changes again.
      have hnone : registry t = none := not_not.mp fun hne => hsame (hfirst hne)
      have hsome : c.registry t ≠ none := fun h => hsame (h.trans hnone.symm)
      rw [if_neg hsame, hzero hsome]
      exact ⟨le_rfl, fun hne => absurd hnone hne⟩

theorem Registry.store_of_ne (ht : t ≠ ref) (hat : '@' ∉ t.toList) : registry.store ref digest t = registry t := by
  have hdigest : t ≠ ref ++ "@" ++ digest := by
    rintro rfl
    refine hat ?_
    rw [String.toList_append, String.toList_append]
    exact List.mem_append_left _ (List.mem_append_right _ List.mem_cons_self)
  rw [Registry.store, Function.update_of_ne ht, Function.update_of_ne hdigest]

theorem Command.perform_push (h : (Command.push ref).perform weather registry = (answer, registry')) :
    registry' = registry ∨ ∃ digest, registry' = registry.store ref digest := by
  rw [perform] at h
  split at h
  · obtain ⟨-, rfl⟩ := Prod.mk.inj h
    split
    · exact .inr ⟨_, rfl⟩
    · exact .inl rfl
  · exact .inr ⟨_, (Prod.mk.inj h).2.symm⟩

/-- Only an absent reference is confirmed absent. -/
theorem Command.perform_absent (h : (Command.manifestInspect ref).perform weather registry = (.error stderr, registry'))
    (habsent : confirmsAbsence ref stderr = true) : registry' ref = none := by
  rw [perform] at h
  split at h
  · next outage _ =>
    obtain ⟨herror, -⟩ := Prod.mk.inj h
    rw [← Except.error.inj herror, outage.silent ref] at habsent
    contradiction
  · cases (Prod.mk.inj h).1
  · next hnone => exact (Prod.mk.inj h).2 ▸ hnone

theorem Command.perform_found {output : Except String Json}
    (h : (Command.manifestInspect ref).perform weather registry = (.ok output, registry')) : registry' ref ≠ none := by
  rw [perform] at h
  split at h
  · cases (Prod.mk.inj h).1
  · next hsome =>
    rw [← (Prod.mk.inj h).2, hsome]
    exact Option.some_ne_none _
  · cases (Prod.mk.inj h).1

end Registries

section Phases
variable {weather : ℕ → Weather} {tag commit version repository : String} {s s' : DockerState} {e : String × String}
  {es : List (String × String)} {result : Except ScriptError Unit} {ref t : String}

theorem Did.cons {c : CommandRun} {runs : List CommandRun} (h : Did s s' (c :: runs)) :
    (∃ w, c.command.perform w s.registry = (c.answer, c.registry)) ∧ Ran c.registry runs s'.registry := by
  have hran := h.ran
  generalize s'.registry = registry at hran
  cases hran with
  | cons w hperform rest => exact ⟨⟨w, hperform⟩, rest⟩

/-- A tag that was looked up and is confirmed absent. -/
def ConfirmedAbsent (ref : String) (c : CommandRun) : Prop :=
  c.command = .manifestInspect ref ∧ c.registry ref = none ∧
    ∃ stderr, c.answer = .error stderr ∧ confirmsAbsence ref stderr = true

theorem preflightOne_did (h : preflightOne weather version repository s = (result, s')) :
    ∃ runs, Did s s' runs ∧ (∀ c ∈ runs, c.command.isPush = false) ∧
      (result = .ok () → ∃ c ∈ runs, ConfirmedAbsent (reference repository version) c) := by
  rcases Docker.bind_cases h with ⟨a, s₁, hask, h⟩ | ⟨_, hask, -⟩
  · obtain ⟨a', ha, hdid⟩ := Docker.ask_did hask
    obtain rfl := Except.ok.inj ha
    cases a with
    | ok output =>
      obtain ⟨rfl, rfl⟩ := Prod.mk.inj h
      exact ⟨_, hdid, List.forall_mem_singleton.mpr rfl, fun h => by cases h⟩
    | error stderr =>
      by_cases habsent : confirmsAbsence (reference repository version) stderr = true
      · have hpure : (pure () : Docker Unit) s₁ = (result, s') := by simpa only [if_pos habsent] using h
        obtain ⟨rfl, rfl⟩ := Prod.mk.inj hpure
        obtain ⟨⟨w, hperform⟩, -⟩ := hdid.cons
        exact ⟨_, hdid, List.forall_mem_singleton.mpr rfl, fun _ => ⟨_, List.mem_singleton_self _, rfl,
          Command.perform_absent hperform habsent, stderr, rfl, habsent⟩⟩
      · have hraise : (Docker.lift (.error (.runtimeError "Registry lookup failed; publication refused")) : Docker Unit) s₁ =
            (result, s') := by simpa only [if_neg habsent] using h
        obtain ⟨rfl, rfl⟩ := Prod.mk.inj hraise
        exact ⟨_, hdid, List.forall_mem_singleton.mpr rfl, fun h => by cases h⟩
  · obtain ⟨_, ha, -⟩ := Docker.ask_did hask
    contradiction

/-- The image to publish: for linux/amd64, built from the commit, as the version. -/
structure Artifactual (tag commit : String) (image : Json) : Prop where
  os : image.get? "Os" = some (.str "linux")
  architecture : image.get? "Architecture" = some (.str "amd64")
  labels : ∃ config labels, image.get? "Config" = some config ∧ config.get? "Labels" = some labels ∧
    labels.get? "org.opencontainers.image.revision" = some (.str commit) ∧
      labels.get? "org.opencontainers.image.version" = some (.str (tagVersion tag))

theorem getD_eq_str {value v : Json} {key text : String} (h : value.getD key .null = .ok v) (hv : v = .str text) :
    value.get? key = some (.str text) := by
  obtain ⟨fields, rfl, hlookup⟩ := Json.getD_eq_ok h
  rw [Json.get?]
  cases hfield : fields.lookup key with
  | none =>
    rw [hfield] at hlookup
    cases (hv.symm.trans hlookup)
  | some w =>
    rw [hfield] at hlookup
    exact congrArg some (hlookup.symm.trans hv)

theorem isArtifact_eq_true {image : Json} (h : isArtifact tag commit image = .ok true) : Artifactual tag commit image := by
  obtain ⟨config, hconfig, h⟩ := bind_eq_ok.mp h
  obtain ⟨labels, hlabels, h⟩ := bind_eq_ok.mp h
  obtain ⟨os, hos, h⟩ := bind_eq_ok.mp h
  obtain ⟨architecture, harchitecture, h⟩ := bind_eq_ok.mp h
  split at h
  · contradiction
  · next hplatform =>
    obtain ⟨hlinux, hamd64⟩ := not_or.mp hplatform
    obtain ⟨revision, hrevision, h⟩ := bind_eq_ok.mp h
    split at h
    · contradiction
    · next hcommit =>
      obtain ⟨version, hversion, h⟩ := bind_eq_ok.mp h
      have hrevision := getD_eq_str hrevision (not_not.mp hcommit)
      have hversion := getD_eq_str hversion (of_decide_eq_true (Except.ok.inj h))
      -- An image without labels has none of them, so `or {}` kept what was there.
      have hkept : labels.orElse (.obj []) = labels := by
        refine Json.orElse_cases.resolve_left fun hempty => ?_
        rw [hempty] at hrevision
        contradiction
      rw [hkept] at hrevision hversion
      obtain ⟨fields, rfl, hlookup⟩ := Json.getD_eq_ok hlabels
      cases hfield : fields.lookup "Labels" with
      | none =>
        rw [hlookup, hfield] at hrevision
        contradiction
      | some v =>
        rw [hfield] at hlookup
        exact {
          os := not_not.mp hlinux ▸ Json.item_eq_ok.mp hos
          architecture := not_not.mp hamd64 ▸ Json.item_eq_ok.mp harchitecture
          labels := ⟨_, labels, Json.item_eq_ok.mp hconfig, hfield.trans (congrArg some hlookup.symm), hrevision,
            hversion⟩ }

/-- A local image that was inspected and is the one to publish. -/
def ConfirmedArtifact (tag commit ref : String) (c : CommandRun) : Prop :=
  c.command = .imageInspect ref ∧ ∃ value image, c.answer = .ok (.ok value) ∧ value.first = .ok image ∧
    Artifactual tag commit image

theorem checkLocal_did (h : checkLocal weather tag commit e s = (result, s')) :
    ∃ runs, Did s s' runs ∧ (∀ c ∈ runs, c.command.isPush = false) ∧
      (result = .ok () → ∃ c ∈ runs, ConfirmedArtifact tag commit (reference e.2 (tagVersion tag)) c) := by
  rcases Docker.bind_cases h with ⟨image, s₁, hinspect, h⟩ | ⟨_, hinspect, rfl⟩
  · obtain ⟨a, hdid, ha⟩ := Docker.inspect_did hinspect
    obtain ⟨value, rfl, hfirst⟩ := ha image rfl
    obtain ⟨hresult, rfl⟩ := Prod.mk.inj h
    refine ⟨_, hdid, List.forall_mem_singleton.mpr rfl, fun hok => ⟨_, List.mem_singleton_self _, rfl, value, image, rfl,
      hfirst, ?_⟩⟩
    obtain ⟨b, hb, hrefuse⟩ := bind_eq_ok.mp (hresult.trans hok)
    rw [refuse_eq_ok] at hrefuse
    cases b with
    | true => exact isArtifact_eq_true hb
    | false => contradiction
  · obtain ⟨a, hdid, -⟩ := Docker.inspect_did hinspect
    exact ⟨_, hdid, List.forall_mem_singleton.mpr rfl, fun h => by cases h⟩

/-- What is known of an image for which a record has an entry. -/
structure Published (tag : String) (runs : List CommandRun) (e : String × String) (entry : String × Json) : Prop where
  pushed : ∃ c ∈ runs, c.command = .push (reference e.2 (tagVersion tag)) ∧ ∃ output, c.answer = .ok output
  digest : ∃ digest image value, entry = (e.1, recordImage tag e.2 digest) ∧
    publishedDigests e.2 image = .ok [digest] ∧ digestPattern.fullmatch digest.toList = true ∧
    value.first = .ok image ∧
      ∃ c ∈ runs, c.command = .imageInspect (reference e.2 (tagVersion tag)) ∧ c.answer = .ok (.ok value)

theorem Published.mono {runs runs' : List CommandRun} {entry : String × Json} (h : Published tag runs e entry)
    (hsub : runs ⊆ runs') : Published tag runs' e entry := by
  obtain ⟨⟨c, hc, hpushed⟩, digest, image, value, hentry, hdigests, hmatch, hfirst, i, hi, hinspect⟩ := h
  exact ⟨⟨c, hsub hc, hpushed⟩, digest, image, value, hentry, hdigests, hmatch, hfirst, i, hsub hi, hinspect⟩

theorem soleDigest_eq_ok {image : Json} {digest : String} (h : soleDigest e image = .ok digest) :
    publishedDigests e.2 image = .ok [digest] ∧ digestPattern.fullmatch digest.toList = true := by
  obtain ⟨digests, hdigests, h⟩ := bind_eq_ok.mp h
  split at h
  · split at h
    · next hmatch =>
      obtain rfl := Except.ok.inj h
      exact ⟨hdigests, hmatch⟩
    · contradiction
  · contradiction

theorem pushImage_did {result : Except ScriptError (String × Json)} (h : pushImage weather tag e s = (result, s')) :
    ∃ c runs, Did s s' (c :: runs) ∧ c.command = .push (reference e.2 (tagVersion tag)) ∧
      (∀ i ∈ runs, i.command.isPush = false) ∧ ∀ entry, result = .ok entry → Published tag (c :: runs) e entry := by
  rcases Docker.bind_cases h with ⟨output, s₁, hpush, h⟩ | ⟨_, hpush, rfl⟩
  · obtain ⟨a, hdid, ha⟩ := Docker.run_did hpush
    obtain rfl := ha output rfl
    rcases Docker.bind_cases h with ⟨image, s₂, hinspect, h⟩ | ⟨_, hinspect, rfl⟩
    · obtain ⟨a, hdid', ha⟩ := Docker.inspect_did hinspect
      obtain ⟨value, rfl, hfirst⟩ := ha image rfl
      rcases Docker.bind_cases h with ⟨digest, s₃, hlift, h⟩ | ⟨_, hlift, rfl⟩
      · obtain ⟨hdigest, rfl⟩ := Prod.mk.inj hlift
        obtain ⟨rfl, rfl⟩ := Prod.mk.inj h
        obtain ⟨hsole, hmatch⟩ := soleDigest_eq_ok hdigest
        refine ⟨_, _, hdid.trans hdid', rfl, List.forall_mem_singleton.mpr rfl, fun entry hentry => ?_⟩
        exact {
          pushed := ⟨_, List.mem_cons_self, rfl, output, rfl⟩
          digest := ⟨digest, image, value, (Except.ok.inj hentry).symm, hsole, hmatch, hfirst, _,
            List.mem_cons_of_mem _ List.mem_cons_self, rfl, rfl⟩ }
      · obtain ⟨-, rfl⟩ := Prod.mk.inj hlift
        exact ⟨_, _, hdid.trans hdid', rfl, List.forall_mem_singleton.mpr rfl, fun _ h => by cases h⟩
    · obtain ⟨a, hdid', -⟩ := Docker.inspect_did hinspect
      exact ⟨_, _, hdid.trans hdid', rfl, List.forall_mem_singleton.mpr rfl, fun _ h => by cases h⟩
  · obtain ⟨a, hdid, -⟩ := Docker.run_did hpush
    exact ⟨_, _, hdid, rfl, List.forall_mem_nil _, fun _ h => by cases h⟩

/-- The loop of pushes, where every tag is absent: no tag changes that resolved before. -/
theorem pushImages_did {result : Except ScriptError (List (String × Json))} (h : pushImages weather tag es s = (result, s'))
    (hnodup : (es.map fun e => reference e.2 (tagVersion tag)).Nodup)
    (hat : ∀ e ∈ es, '@' ∉ (reference e.2 (tagVersion tag)).toList)
    (habsent : ∀ e ∈ es, s.registry (reference e.2 (tagVersion tag)) = none) :
    ∃ runs, Did s s' runs ∧ (∀ t, '@' ∉ t.toList → Grows t s.registry runs) ∧
      ∀ images, result = .ok images → List.Forall₂ (Published tag runs) es images := by
  induction es generalizing s result with
  | nil =>
    obtain ⟨rfl, rfl⟩ := Prod.mk.inj h
    exact ⟨[], Did.refl s, fun _ _ => trivial, fun _ h => Except.ok.inj h ▸ .nil⟩
  | cons e es ih =>
    obtain ⟨hfresh, hnodup⟩ := List.nodup_cons.mp hnodup
    obtain ⟨hnone, habsent⟩ := List.forall_mem_cons.mp habsent
    obtain ⟨-, hat⟩ := List.forall_mem_cons.mp hat
    have hgrows {s₁ : DockerState} {c : CommandRun} {runs : List CommandRun} (hdid : Did s s₁ (c :: runs))
        (hpush : c.command = .push (reference e.2 (tagVersion tag))) (hquiet : ∀ i ∈ runs, i.command.isPush = false) :
        (∀ t, '@' ∉ t.toList → t ≠ reference e.2 (tagVersion tag) → s₁.registry t = s.registry t) ∧
          ∀ t, '@' ∉ t.toList → Grows t s.registry (c :: runs) := by
      obtain ⟨⟨w, hperform⟩, hran⟩ := hdid.cons
      rw [hpush] at hperform
      have hother (t : String) (ht : '@' ∉ t.toList) (hne : t ≠ reference e.2 (tagVersion tag)) :
          c.registry t = s.registry t := by
        rcases Command.perform_push hperform with hsame | ⟨digest, hstore⟩
        · rw [hsame]
        · rw [hstore, Registry.store_of_ne hne ht]
      refine ⟨fun t ht hne => ?_, fun t ht => ⟨fun hsome => ?_, hran.grows hquiet⟩⟩
      · rw [(hran.quiet hquiet).1, hother t ht hne]
      · refine hother t ht fun heq => hsome ?_
        rw [heq, hnone]
    rcases Docker.bind_cases h with ⟨entry, s₁, himage, h⟩ | ⟨_, himage, rfl⟩
    · obtain ⟨c, runs, hdid, hpush, hquiet, hentry⟩ := pushImage_did himage
      obtain ⟨hkept, hgrow⟩ := hgrows hdid hpush hquiet
      have habsent' : ∀ e' ∈ es, s₁.registry (reference e'.2 (tagVersion tag)) = none := by
        intro e' he'
        rw [hkept _ (hat e' he') fun heq => hfresh (List.mem_map.mpr ⟨e', he', heq⟩)]
        exact habsent e' he'
      rcases Docker.bind_cases h with ⟨entries, s₂, himages, h⟩ | ⟨_, himages, rfl⟩
      · obtain ⟨rfl, rfl⟩ := Prod.mk.inj h
        obtain ⟨runs', hdid', hgrow', hentries⟩ := ih himages hnodup hat habsent'
        refine ⟨c :: runs ++ runs', hdid.trans hdid', fun t ht => (hgrow t ht).append hdid.ran (hgrow' t ht),
          fun images himages => ?_⟩
        obtain rfl := Except.ok.inj himages
        refine .cons ((hentry entry rfl).mono (List.subset_append_left _ _)) ?_
        exact (hentries entries rfl).imp fun _ _ h => h.mono (List.subset_append_right _ _)
      · obtain ⟨runs', hdid', hgrow', -⟩ := ih himages hnodup hat habsent'
        exact ⟨c :: runs ++ runs', hdid.trans hdid', fun t ht => (hgrow t ht).append hdid.ran (hgrow' t ht),
          fun _ h => by cases h⟩
    · obtain ⟨c, runs, hdid, hpush, hquiet, -⟩ := pushImage_did himage
      exact ⟨c :: runs, hdid, (hgrows hdid hpush hquiet).2, fun _ h => by cases h⟩

/-- What a version tag looks like. -/
theorem validateIdentity_eq_ok (h : validateIdentity tag commit = .ok ()) : ∃ a b c, tagVersion tag = dottedText a b c := by
  simp only [validateIdentity, bind_eq_ok, refuse_eq_ok] at h
  obtain ⟨_, htag, -⟩ := h
  obtain ⟨u, v, hu, hv, htext⟩ := fullmatch_seq.mp (Bool.not_eq_eq_eq_not.mp htag)
  obtain ⟨d, -, rfl⟩ := fullmatch_cls.mp hu
  have hversion : (tagVersion tag).toList = v := by
    rw [tagVersion, String.toList_ofList, ← htext]
    rfl
  exact dotted_iff.mp (hversion ▸ hv)

theorem reference_dottedText {a b c : ℕ} (he : e ∈ repositories) : '@' ∉ (reference e.2 (dottedText a b c)).toList := by
  have hrepository : '@' ∉ e.2.toList := by
    have hall : ∀ e ∈ repositories, '@' ∉ e.2.toList := by decide +kernel
    exact hall e he
  have hdigits (n : ℕ) : '@' ∉ Nat.toDigits 10 n := fun h => absurd (digit_of_mem_toDigits h) (by decide)
  have hcolon : '@' ∉ ":".toList := by decide
  rw [reference, String.toList_append, String.toList_append, toList_dottedText]
  simp only [List.mem_append, List.mem_cons, not_or]
  exact ⟨⟨hrepository, hcolon⟩, hdigits a, by decide, hdigits b, by decide, hdigits c⟩

theorem reference_noAt (h : validateIdentity tag commit = .ok ()) (he : e ∈ repositories) :
    '@' ∉ (reference e.2 (tagVersion tag)).toList := by
  obtain ⟨a, b, c, hversion⟩ := validateIdentity_eq_ok h
  exact hversion ▸ reference_dottedText he

theorem references_nodup : (repositories.map fun e => reference e.2 version).Nodup := by
  have hnames : (repositories.map Prod.snd).Nodup := by decide +kernel
  have hinjective : Function.Injective fun repository => reference repository version := by
    intro a b h
    exact (String.append_left_inj ":").mp ((String.append_left_inj version).mp h)
  have hmap := hnames.map hinjective
  rwa [List.map_map] at hmap

/-- The entry that a record has for one repository. -/
def Recorded (tag : String) (e : String × String) (entry : String × Json) : Prop :=
  ∃ digest, entry = (e.1, recordImage tag e.2 digest) ∧ digestPattern.fullmatch digest.toList = true

theorem pushImages_recorded {images : List (String × Json)} (h : pushImages weather tag es s = (.ok images, s')) :
    List.Forall₂ (Recorded tag) es images := by
  induction es generalizing s s' images with
  | nil =>
    obtain ⟨himages, -⟩ := Prod.mk.inj h
    exact Except.ok.inj himages ▸ .nil
  | cons e es ih =>
    rcases Docker.bind_cases h with ⟨entry, s₁, himage, h⟩ | ⟨_, -, h⟩
    · rcases Docker.bind_cases h with ⟨entries, s₂, hentries, h⟩ | ⟨_, -, h⟩
      · obtain ⟨himages, -⟩ := Prod.mk.inj h
        obtain rfl := Except.ok.inj himages
        obtain ⟨c, runs, -, -, -, hpublished⟩ := pushImage_did himage
        obtain ⟨digest, _, _, hentry, -, hmatch, -⟩ := (hpublished entry rfl).digest
        exact .cons ⟨digest, hentry, hmatch⟩ (ih hentries)
      · contradiction
    · contradiction

/-- An entry of a record passes its check. -/
theorem validateImage_of_recorded {entry : String × Json} (he : e ∈ repositories) (h : Recorded tag e entry) :
    validateImage tag entry = .ok () := by
  obtain ⟨digest, rfl, hmatch⟩ := h
  have hlookup : ∀ e ∈ repositories, repositories.lookup e.1 = some e.2 := by decide +kernel
  have hrepository : (recordImage tag e.2 digest).get? "image_repository" = some (.str e.2) := rfl
  have href : (recordImage tag e.2 digest).get? "image_ref" =
      some (.str (reference e.2 (tagVersion tag) ++ "@" ++ digest)) := rfl
  have htext : (refPattern e.2 tag).fullmatch (reference e.2 (tagVersion tag) ++ "@" ++ digest).toList = true := by
    have htext {u v : String} : u.toList ++ v.toList = (u ++ v).toList := String.toList_append.symm
    exact fullmatch_seq.mpr ⟨_, _, fullmatch_literal.mpr rfl, hmatch, htext⟩
  simp only [validateImage, hlookup e he, Option.elim_some, bind_eq_ok, refuse_eq_ok]
  refine ⟨e.2, rfl, (), ?_, ?_⟩
  · exact decide_eq_false (not_not.mpr hrepository)
  · rw [href]
    exact congrArg not htext

theorem forM_of_forall₂ {images : List (String × Json)} (hes : es ⊆ repositories)
    (h : List.Forall₂ (Recorded tag) es images) : images.forM (validateImage tag) = .ok () := by
  induction h with
  | nil => rfl
  | @cons e entry es images hentry h ih =>
    obtain ⟨he, hes⟩ := List.cons_subset.mp hes
    exact bind_eq_ok.mpr ⟨(), validateImage_of_recorded he hentry, ih hes⟩

/-- A record that was built passes its check. -/
theorem validateRecord_releaseRecord {images : List (String × Json)} (hidentity : validateIdentity tag commit = .ok ())
    (h : List.Forall₂ (Recorded tag) repositories images) :
    validateRecord (releaseRecord tag commit images) tag commit = .ok images := by
  have hnames : ∀ {es : List (String × String)} {images : List (String × Json)}, List.Forall₂ (Recorded tag) es images →
      images.map Prod.fst = es.map Prod.fst := by
    intro es images h
    induction h with
    | nil => rfl
    | cons hentry h ih =>
      obtain ⟨digest, rfl, -⟩ := hentry
      exact congrArg _ ih
  have hroles : images.map Prod.fst ⊆ repositories.map Prod.fst ∧ repositories.map Prod.fst ⊆ images.map Prod.fst := by
    rw [hnames h]
    exact ⟨List.Subset.refl _, List.Subset.refl _⟩
  have htag : (releaseRecord tag commit images).getD "release_tag" .null = .ok (.str tag) := rfl
  have hcommit : (releaseRecord tag commit images).getD "commit" .null = .ok (.str commit) := rfl
  have himages : recordImages (releaseRecord tag commit images) = .ok images := if_pos hroles
  rw [validateRecord]
  refine bind_eq_ok.mpr ⟨(), hidentity, bind_eq_ok.mpr ⟨_, htag, bind_eq_ok.mpr ⟨_, hcommit, bind_eq_ok.mpr ⟨(), ?_, ?_⟩⟩⟩⟩
  · rw [refuse_eq_ok]
    simp
  · exact bind_eq_ok.mpr ⟨images, himages, bind_eq_ok.mpr ⟨(), forM_of_forall₂ (List.Subset.refl _) h, rfl⟩⟩

/-- A reference of a record that was looked up and found. -/
def Found (entry : String × Json) (c : CommandRun) : Prop :=
  ∃ ref, entry.2.get? "image_ref" = some (.str ref) ∧ c.command = .manifestInspect ref ∧
    (∃ output, c.answer = .ok output) ∧ c.registry ref ≠ none

theorem verifyImage_did {entry : String × Json} (h : verifyImage weather entry s = (result, s')) :
    ∃ runs, Did s s' runs ∧ (∀ c ∈ runs, c.command.isPush = false) ∧ (result = .ok () → ∃ c ∈ runs, Found entry c) := by
  rcases Docker.bind_cases h with ⟨value, s₁, hlift, h⟩ | ⟨_, hlift, rfl⟩
  · obtain ⟨hitem, rfl⟩ := Prod.mk.inj hlift
    cases value with
    | str ref =>
      rcases Docker.bind_cases h with ⟨output, s₂, hrun, h⟩ | ⟨_, hrun, rfl⟩
      · obtain ⟨a, hdid, ha⟩ := Docker.run_did hrun
        obtain rfl := ha output rfl
        obtain ⟨rfl, rfl⟩ := Prod.mk.inj h
        obtain ⟨⟨w, hperform⟩, -⟩ := hdid.cons
        exact ⟨_, hdid, List.forall_mem_singleton.mpr rfl, fun _ => ⟨_, List.mem_singleton_self _, ref,
          Json.item_eq_ok.mp hitem, rfl, ⟨output, rfl⟩, Command.perform_found hperform⟩⟩
      · obtain ⟨a, hdid, -⟩ := Docker.run_did hrun
        exact ⟨_, hdid, List.forall_mem_singleton.mpr rfl, fun h => by cases h⟩
    | _ =>
      obtain ⟨rfl, rfl⟩ := Prod.mk.inj h
      exact ⟨[], Did.refl _, List.forall_mem_nil _, fun h => by cases h⟩
  · obtain ⟨-, rfl⟩ := Prod.mk.inj hlift
    exact ⟨[], Did.refl _, List.forall_mem_nil _, fun h => by cases h⟩

end Phases

/-- What one attempt does: its checks, which push nothing, and the rest. -/
structure Publishing (tag commit : String) (s s' : DockerState) (result : Except ScriptError Json)
    (checks rest : List CommandRun) : Prop where
  did : Did s s' (checks ++ rest)
  quiet : ∀ c ∈ checks, c.command.isPush = false
  confirmed : rest ≠ [] → ∀ e ∈ repositories,
    (∃ c ∈ checks, ConfirmedAbsent (reference e.2 (tagVersion tag)) c) ∧
      ∃ c ∈ checks, ConfirmedArtifact tag commit (reference e.2 (tagVersion tag)) c
  grows : ∀ t, '@' ∉ t.toList → Grows t s.registry (checks ++ rest)
  recorded : ∀ record, result = .ok record → ∃ images, record = releaseRecord tag commit images ∧
    List.Forall₂ (Published tag rest) repositories images ∧ validateRecord record tag commit = .ok images ∧
      ∀ entry ∈ images, ∃ c ∈ rest, Found entry c

section Attempts
variable {weather : ℕ → Weather} {tag commit : String} {s s' : DockerState}

theorem Publishing.of_checks {result : Except ScriptError Json} {checks : List CommandRun} (hdid : Did s s' checks)
    (hquiet : ∀ c ∈ checks, c.command.isPush = false) (hresult : ∀ record, result ≠ .ok record) :
    Publishing tag commit s s' result checks [] where
  did := (List.append_nil checks).symm ▸ hdid
  quiet := hquiet
  confirmed h := absurd rfl h
  grows _ _ := (List.append_nil checks).symm ▸ hdid.ran.grows hquiet
  recorded record h := absurd h (hresult record)

theorem preflight_did {result : Except ScriptError Unit} (h : preflight weather (tagVersion tag) s = (result, s')) :
    ∃ runs, Did s s' runs ∧ (∀ c ∈ runs, c.command.isPush = false) ∧
      (result = .ok () → ∀ e ∈ repositories, ∃ c ∈ runs, ConfirmedAbsent (reference e.2 (tagVersion tag)) c) := by
  refine Docker.forM_did (P := fun e c => ConfirmedAbsent (reference e.2 (tagVersion tag)) c) ?_ h
  intro e s result s' h
  exact preflightOne_did h

theorem checkLocals_did {result : Except ScriptError Unit}
    (h : repositories.forM (checkLocal weather tag commit) s = (result, s')) :
    ∃ runs, Did s s' runs ∧ (∀ c ∈ runs, c.command.isPush = false) ∧ (result = .ok () →
      ∀ e ∈ repositories, ∃ c ∈ runs, ConfirmedArtifact tag commit (reference e.2 (tagVersion tag)) c) := by
  refine Docker.forM_did (P := fun e c => ConfirmedArtifact tag commit (reference e.2 (tagVersion tag)) c) ?_ h
  intro e s result s' h
  exact checkLocal_did h

theorem verifyRemote_did {images : List (String × Json)} {result : Except ScriptError Unit}
    (h : verifyRemote weather images s = (result, s')) :
    ∃ runs, Did s s' runs ∧ (∀ c ∈ runs, c.command.isPush = false) ∧
      (result = .ok () → ∀ entry ∈ images, ∃ c ∈ runs, Found entry c) := by
  refine Docker.forM_did (P := Found) ?_ h
  intro entry s result s' h
  exact verifyImage_did h

theorem publish_did {result : Except ScriptError Json} (h : publish weather tag commit s = (result, s')) :
    ∃ checks rest, Publishing tag commit s s' result checks rest := by
  rcases Docker.bind_cases h with ⟨_, s₀, hlift, h⟩ | ⟨_, hlift, rfl⟩
  swap
  · obtain ⟨-, rfl⟩ := Prod.mk.inj hlift
    exact ⟨[], [], .of_checks (Did.refl _) (List.forall_mem_nil _) (fun _ h => by cases h)⟩
  obtain ⟨hidentity, rfl⟩ := Prod.mk.inj hlift
  rcases Docker.bind_cases h with ⟨_, s₁, hpreflight, h⟩ | ⟨_, hpreflight, rfl⟩
  swap
  · obtain ⟨checks, hdid, hquiet, -⟩ := preflight_did hpreflight
    exact ⟨checks, [], .of_checks hdid hquiet (fun _ h => by cases h)⟩
  obtain ⟨checks, hdid, hquiet, habsent⟩ := preflight_did hpreflight
  rcases Docker.bind_cases h with ⟨_, s₂, hlocal, h⟩ | ⟨_, hlocal, rfl⟩
  swap
  · obtain ⟨checks', hdid', hquiet', -⟩ := checkLocals_did hlocal
    exact ⟨checks ++ checks', [], .of_checks (hdid.trans hdid') (List.forall_mem_append.mpr ⟨hquiet, hquiet'⟩)
      (fun _ h => by cases h)⟩
  obtain ⟨checks', hdid', hquiet', hartifact⟩ := checkLocals_did hlocal
  have hchecks := hdid.trans hdid'
  have hquiets := List.forall_mem_append.mpr ⟨hquiet, hquiet'⟩
  -- The checks left the registry alone, so every tag is still absent when the pushes start.
  have hnone : ∀ e ∈ repositories, s₂.registry (reference e.2 (tagVersion tag)) = none := by
    intro e he
    obtain ⟨c, hc, -, hc', -⟩ := habsent rfl e he
    rw [(hchecks.ran.quiet hquiets).1, ← (hdid.ran.quiet hquiet).2 c hc]
    exact hc'
  have hconfirmed : ∀ e ∈ repositories, (∃ c ∈ checks ++ checks', ConfirmedAbsent (reference e.2 (tagVersion tag)) c) ∧
      ∃ c ∈ checks ++ checks', ConfirmedArtifact tag commit (reference e.2 (tagVersion tag)) c := by
    intro e he
    obtain ⟨c, hc, hc'⟩ := habsent rfl e he
    obtain ⟨i, hi, hi'⟩ := hartifact rfl e he
    exact ⟨⟨c, List.mem_append_left _ hc, hc'⟩, i, List.mem_append_right _ hi, hi'⟩
  have hpushes {result : Except ScriptError (List (String × Json))} {s₃ : DockerState}
      (h : pushImages weather tag repositories s₂ = (result, s₃)) :=
    pushImages_did h references_nodup (fun _ => reference_noAt hidentity) hnone
  have hfailed {result : Except ScriptError Json} {s₃ : DockerState} {runs : List CommandRun} (hdid'' : Did s₂ s₃ runs)
      (hgrows : ∀ t, '@' ∉ t.toList → Grows t s₂.registry runs) (hresult : ∀ record, result ≠ .ok record) :
      Publishing tag commit s s₃ result (checks ++ checks') runs := {
    did := hchecks.trans hdid''
    quiet := hquiets
    confirmed := fun _ => hconfirmed
    grows := fun t ht => (hchecks.ran.grows hquiets).append hchecks.ran (hgrows t ht)
    recorded := fun record h => absurd h (hresult record) }
  rcases Docker.bind_cases h with ⟨images, s₃, himages, h⟩ | ⟨_, himages, rfl⟩
  swap
  · obtain ⟨runs, hdid'', hgrows, -⟩ := hpushes himages
    exact ⟨_, runs, hfailed hdid'' hgrows (fun _ h => by cases h)⟩
  obtain ⟨runs, hdid'', hgrows, hpublished⟩ := hpushes himages
  have hvalid := validateRecord_releaseRecord hidentity (pushImages_recorded himages)
  rcases Docker.bind_cases h with ⟨images', s₄, hlift, h⟩ | ⟨_, hlift, rfl⟩
  swap
  · obtain ⟨-, rfl⟩ := Prod.mk.inj hlift
    exact ⟨_, runs, hfailed hdid'' hgrows (fun _ h => by cases h)⟩
  obtain ⟨hvalid', rfl⟩ := Prod.mk.inj hlift
  obtain rfl := Except.ok.inj (hvalid.symm.trans hvalid')
  have hgrows' {s₄ : DockerState} {runs' : List CommandRun} (hdid₄ : Did s₃ s₄ runs')
      (hquiet₄ : ∀ c ∈ runs', c.command.isPush = false) (t : String) (ht : '@' ∉ t.toList) :
      Grows t s₂.registry (runs ++ runs') := (hgrows t ht).append hdid''.ran (hdid₄.ran.grows hquiet₄)
  rcases Docker.bind_cases h with ⟨_, s₄, hremote, h⟩ | ⟨_, hremote, rfl⟩
  swap
  · obtain ⟨runs', hdid₄, hquiet₄, -⟩ := verifyRemote_did hremote
    exact ⟨_, runs ++ runs', hfailed (hdid''.trans hdid₄) (hgrows' hdid₄ hquiet₄) (fun _ h => by cases h)⟩
  obtain ⟨runs', hdid₄, hquiet₄, hfound⟩ := verifyRemote_did hremote
  obtain ⟨rfl, rfl⟩ := Prod.mk.inj h
  refine ⟨checks ++ checks', runs ++ runs', hchecks.trans (hdid''.trans hdid₄), hquiets, fun _ => hconfirmed,
    fun t ht => (hchecks.ran.grows hquiets).append hchecks.ran (hgrows' hdid₄ hquiet₄ t ht), fun record hrecord => ?_⟩
  obtain rfl := Except.ok.inj hrecord
  refine ⟨images, rfl, (hpublished images rfl).imp fun _ _ h => h.mono (List.subset_append_left _ _), hvalid, ?_⟩
  intro entry hentry
  obtain ⟨c, hc, hc'⟩ := hfound rfl entry hentry
  exact ⟨c, List.mem_append_right _ hc, hc'⟩

/-- Over all attempts a tag that resolves keeps what it resolves to. -/
theorem publishAll_grows {attempts : List (String × String)} (h : publishAll weather attempts s = s') :
    ∃ runs, Did s s' runs ∧ ∀ t, '@' ∉ t.toList → Grows t s.registry runs := by
  induction attempts generalizing s with
  | nil =>
    obtain rfl := h
    exact ⟨[], Did.refl _, fun _ _ => trivial⟩
  | cons attempt attempts ih =>
    obtain ⟨checks, rest, hpublish⟩ := publish_did (rfl : publish weather attempt.1 attempt.2 s = _)
    obtain ⟨runs, hdid, hgrows⟩ := ih h
    exact ⟨_, hpublish.did.trans hdid, fun t ht => (hpublish.grows t ht).append hpublish.did.ran (hgrows t ht)⟩

end Attempts
/-- A release is published at most once: an attempt pushes only what its checks confirmed to be absent and complete,
a version tag changes at most once over all attempts, and a record is written for what was pushed, is valid and was
found. -/
theorem release_published_once (weather : ℕ → Weather) :
    (∀ tag commit s, ∃ checks rest,
      Publishing tag commit s (publish weather tag commit s).2 (publish weather tag commit s).1 checks rest) ∧
    (∀ attempts s, ∃ runs, Did s (publishAll weather attempts s) runs ∧ ∀ e ∈ repositories, ∀ a b c,
      changes (reference e.2 (dottedText a b c)) s.registry runs ≤ 1) ∧
    ∀ tag commit images s s', validateIdentity tag commit = .ok () →
      pushImages weather tag repositories s = (.ok images, s') →
        validateRecord (releaseRecord tag commit images) tag commit = .ok images := by
  refine ⟨fun tag commit s => publish_did rfl, fun attempts s => ?_, ?_⟩
  · obtain ⟨runs, hdid, hgrows⟩ := publishAll_grows (rfl : publishAll weather attempts s = _)
    refine ⟨runs, hdid, fun e he a b c => ?_⟩
    exact (changes_of_grows (hgrows _ (reference_dottedText he))).1
  · intro tag commit images s s' hidentity himages
    exact validateRecord_releaseRecord hidentity (pushImages_recorded himages)

/-- An attempt all of whose phases succeed. -/
theorem publish_ok {weather : ℕ → Weather} {tag commit : String} {s s₁ s₂ s₃ s' : DockerState}
    {images : List (String × Json)} (hidentity : validateIdentity tag commit = .ok ())
    (hpreflight : preflight weather (tagVersion tag) s = (.ok (), s₁))
    (hlocals : repositories.forM (checkLocal weather tag commit) s₁ = (.ok (), s₂))
    (himages : pushImages weather tag repositories s₂ = (.ok images, s₃))
    (hrecord : validateRecord (releaseRecord tag commit images) tag commit = .ok images)
    (hverified : verifyRemote weather images s₃ = (.ok (), s')) :
    publish weather tag commit s = (.ok (releaseRecord tag commit images), s') := by
  have hfirst : Docker.lift (validateIdentity tag commit) s = (.ok (), s) := by rw [Docker.lift, hidentity]
  have hthird : Docker.lift (validateRecord (releaseRecord tag commit images) tag commit) s₃ = (.ok images, s₃) := by
    rw [Docker.lift, hrecord]
  unfold publish
  rw [Docker.bind_ok hfirst, Docker.bind_ok hpreflight, Docker.bind_ok hlocals, Docker.bind_ok himages,
    Docker.bind_ok hthird, Docker.bind_ok hverified]
  rfl

namespace Demo

def sourceCommit : String := "0123456789abcdef0123456789abcdef01234567"

def pushedDigest : String := "sha256:0123456789abcdef0123456789abcdef0123456789abcdef0123456789abcdef"

/-- What `docker image inspect` prints for an image of the version 1.2.3. -/
def builtImage : Json := .obj [("Os", .str "linux"), ("Architecture", .str "amd64"),
  ("Config", .obj [("Labels", .obj [("org.opencontainers.image.revision", .str sourceCommit),
    ("org.opencontainers.image.version", .str "1.2.3")])]),
  ("RepoDigests", .arr (repositories.map fun e => .str (e.2 ++ "@" ++ pushedDigest)))]

def fairWeather (_ : ℕ) : Weather := ⟨none, false, pushedDigest, true, .ok (.arr [builtImage])⟩

/-- Nothing was pushed, and no command was run. -/
def nothingPushed : DockerState := ⟨fun _ => none, []⟩

/-- Whether each phase that sends commands succeeds, from where the one before ended. -/
def phasesPass (weather : ℕ → Weather) (tag commit : String) (s : DockerState) (commands : ℕ) : Bool :=
  match preflight weather (tagVersion tag) s with
  | (.error _, _) => false
  | (.ok _, s₁) => match repositories.forM (checkLocal weather tag commit) s₁ with
    | (.error _, _) => false
    | (.ok _, s₂) => match pushImages weather tag repositories s₂ with
      | (.error _, _) => false
      | (.ok images, s₃) => match verifyRemote weather images s₃ with
        | (.error _, _) => false
        | (.ok _, s) => s.runs.length = commands

theorem phasesPass_iff {weather : ℕ → Weather} {tag commit : String} {s : DockerState} {commands : ℕ}
    (h : phasesPass weather tag commit s commands = true) : ∃ s₁ s₂ s₃ s' images,
      preflight weather (tagVersion tag) s = (.ok (), s₁) ∧
      repositories.forM (checkLocal weather tag commit) s₁ = (.ok (), s₂) ∧
      pushImages weather tag repositories s₂ = (.ok images, s₃) ∧
      verifyRemote weather images s₃ = (.ok (), s') ∧ s'.runs.length = commands := by
  unfold phasesPass at h
  split at h
  · exact absurd h Bool.false_ne_true
  · split at h
    · exact absurd h Bool.false_ne_true
    · split at h
      · exact absurd h Bool.false_ne_true
      · split at h
        · exact absurd h Bool.false_ne_true
        · exact ⟨_, _, _, _, _, ‹_›, ‹_›, ‹_›, ‹_›, of_decide_eq_true h⟩

theorem phases_pass : phasesPass fairWeather "v1.2.3" sourceCommit nothingPushed 15 = true := by decide +kernel

end Demo

/-- In fair weather the version 1.2.3 is published, by fifteen commands. -/
theorem release_published_once_demo :
    (∃ images s checks rest, publish Demo.fairWeather "v1.2.3" Demo.sourceCommit Demo.nothingPushed =
        (.ok (releaseRecord "v1.2.3" Demo.sourceCommit images), s) ∧ s.runs.length = 15 ∧
      validateRecord (releaseRecord "v1.2.3" Demo.sourceCommit images) "v1.2.3" Demo.sourceCommit = .ok images ∧
      Publishing "v1.2.3" Demo.sourceCommit Demo.nothingPushed s
        (.ok (releaseRecord "v1.2.3" Demo.sourceCommit images)) checks rest) ∧
    ∃ runs, Did Demo.nothingPushed (publishAll Demo.fairWeather
        [("v1.2.3", Demo.sourceCommit), ("v1.2.3", Demo.sourceCommit)] Demo.nothingPushed) runs ∧
      ∀ e ∈ repositories, ∀ a b c, changes (reference e.2 (dottedText a b c)) Demo.nothingPushed.registry runs ≤ 1 := by
  obtain ⟨hpublish, honce, hvalid⟩ := release_published_once Demo.fairWeather
  refine ⟨?_, honce _ _⟩
  have hidentity : validateIdentity "v1.2.3" Demo.sourceCommit = .ok () := by decide +kernel
  obtain ⟨s₁, s₂, s₃, s, images, hpreflight, hlocals, himages, hverified, hlength⟩ := Demo.phasesPass_iff Demo.phases_pass
  have hrecord := hvalid _ _ images _ _ hidentity himages
  have hrun := publish_ok hidentity hpreflight hlocals himages hrecord hverified
  obtain ⟨checks, rest, hpublishing⟩ := hpublish "v1.2.3" Demo.sourceCommit Demo.nothingPushed
  rw [hrun] at hpublishing
  exact ⟨images, s, checks, rest, hrun, hlength, hrecord, hpublishing⟩

end Mic3
