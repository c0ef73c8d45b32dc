import Mic3.ChartValues
import Mic3.Platform

/-! Where a run's outputs are: the prefix under which its Job uploads, as the chart and the copy script derive
it from the run's values, and the prefix that the worker lists. -/
namespace Mic3
open Encoding Regex

section Splitting
variable {sep : Char} {tail u v w : List Char}

theorem breakOn_none (h : sep ∉ w) : breakOn (sep :: tail) w = none := by
  induction w with
  | nil => rfl
  | cons c w ih =>
    obtain ⟨hc, hw⟩ := not_or.mp (mt List.mem_cons.mpr h)
    have hroot : (sep :: tail).isPrefixOf (c :: w) = false := by
      rw [List.isPrefixOf, beq_false_of_ne hc, Bool.false_and]
    rw [breakOn, hroot, ih hw]
    rfl

/-- The first separator is the first that there is. -/
theorem breakOn_append (h : sep ∉ u) : breakOn (sep :: tail) (u ++ (sep :: tail ++ v)) = some (u, v) := by
  induction u with
  | nil =>
    have hroot : (sep :: tail).isPrefixOf (sep :: (tail ++ v)) = true :=
      List.isPrefixOf_iff_prefix.mpr ⟨v, rfl⟩
    rw [List.nil_append, List.cons_append, breakOn, if_pos hroot, ← List.cons_append, List.drop_left]
  | cons c u ih =>
    obtain ⟨hc, hu⟩ := not_or.mp (mt List.mem_cons.mpr h)
    have hroot : (sep :: tail).isPrefixOf (c :: (u ++ (sep :: tail ++ v))) = false := by
      rw [List.isPrefixOf, beq_false_of_ne hc, Bool.false_and]
    rw [List.cons_append, breakOn, hroot, ih hu]
    rfl

end Splitting

/-- `splitList` of the chart's templates, with `fuel` splits at most. -/
def splits (sep : List Char) : ℕ → List Char → List (List Char)
  | 0, text => [text]
  | fuel + 1, text =>
    match breakOn sep text with
    | none => [text]
    | some (before, after) => before :: splits sep fuel after

def splitList (sep text : List Char) : List (List Char) := splits sep text.length text

/-- `last` of the chart's templates. -/
def lastPiece (pieces : List (List Char)) : List Char := pieces.getLast?.getD []

/-- `required`: a text that is there and is not empty. -/
def requiredText : Option Json → Option String
  | some (.str text) => if text = "" then none else some text
  | _ => none

/-- The environment of the copy container that tells one run's outputs from another's. -/
structure CopyEnv where
  modelId : String
  modelImageSha : String
  runId : String

/-- `MODEL_ID`, `MODEL_IMAGE_SHA` and `RUN_ID`, as the template fills them in. -/
def copyEnv (values : Json) : Option CopyEnv := do
  let model ← values.get? "model"
  let modelId ← requiredText (model.get? "id")
  let image ← requiredText (model.get? "image")
  let runId ← requiredText (values.get? "runId")
  return ⟨modelId, String.ofList (lastPiece (splitList "@sha256:".toList image.toList)), runId⟩

/-- Where `copy.sh` copies `/outputs/` to, in the bucket. -/
def CopyEnv.uploadPrefix (env : CopyEnv) : String :=
  env.modelId ++ "/sha256-" ++ env.modelImageSha ++ "/" ++ env.runId ++ "/outputs/"

section Pinned
variable {image : String} {name digits : List Char}

/-- The digest of a pinned image, as both sides find it. -/
theorem digestOf_pinned (hat : '@' ∉ name) (hdigits : '@' ∉ digits)
    (h : image.toList = name ++ ("@sha256:".toList ++ digits)) :
    digestOf image = .ok (String.ofList digits) := by
  have hbreak : breakOn "@sha256:".toList image.toList = some (name, digits) := by
    rw [h]
    exact breakOn_append hat
  have hrest : breakOn "@sha256:".toList digits = none := breakOn_none hdigits
  simp only [digestOf, hbreak, hrest]
  rfl

theorem lastPiece_pinned (hat : '@' ∉ name) (hdigits : '@' ∉ digits)
    (h : image.toList = name ++ ("@sha256:".toList ++ digits)) :
    lastPiece (splitList "@sha256:".toList image.toList) = digits := by
  have hbreak : breakOn "@sha256:".toList image.toList = some (name, digits) := by
    rw [h]
    exact breakOn_append hat
  have hrest : breakOn "@sha256:".toList digits = none := breakOn_none hdigits
  obtain ⟨n, hn⟩ : ∃ n, image.toList.length = n + 2 := by
    have hlength := congrArg List.length h
    rw [List.length_append, List.length_append] at hlength
    have hsep : "@sha256:".toList.length = 8 := rfl
    exact ⟨image.toList.length - 2, by omega⟩
  simp only [splitList, hn, splits, hbreak, hrest]
  rfl

theorem isLowerHex_not {c : Char} (h : isLowerHex c = true) : c ≠ '@' ∧ c ≠ '/' := by
  constructor <;> rintro rfl <;> exact absurd h (by decide)

/-- A pinned image is a name without `@`, the separator and the digest. -/
theorem pinned_split (h : isPinnedImage image = true) : ∃ name digits,
    image.toList = name ++ ("@sha256:".toList ++ digits) ∧ '@' ∉ name ∧ '@' ∉ digits ∧ '/' ∉ digits := by
  obtain ⟨name, digits, hname, -, hall, hsplit⟩ := pinned_iff.mp (isPinnedImage_iff.mp h)
  obtain ⟨-, hname⟩ := fullmatch_plus_cls.mp hname
  refine ⟨name, digits, hsplit, fun hat => ?_, fun hat => ?_, fun hslash => ?_⟩
  · exact absurd (hname '@' hat) (by decide)
  · exact (isLowerHex_not (hall _ hat)).1 rfl
  · exact (isLowerHex_not (hall _ hslash)).2 rfl

end Pinned

section Slashes

theorem slash_notMem_key {value : String} (h : isKey value = true) : '/' ∉ value.toList := by
  intro hslash
  have hall : value.toList.all (fun c => keyEdge c || c = '-') = true := by
    simp only [isKey, Bool.and_eq_true] at h
    exact h.1.1.2
  exact absurd (List.all_eq_true.mp hall _ hslash) (by decide)

theorem slash_notMem_hexText (w n : ℕ) : '/' ∉ hexText w n := by
  induction w generalizing n with
  | zero => exact List.not_mem_nil
  | succ w ih =>
    have hdigit {m : ℕ} (hm : m < 16) : '/' ≠ Json.hexDigit m := by
      interval_cases m <;> decide
    simp only [hexText, List.mem_append, List.mem_singleton, not_or]
    exact ⟨ih _, hdigit (Nat.mod_lt _ (by decide))⟩

theorem slash_notMem_uuid (u : UUID) : '/' ∉ u.str.toList := by
  intro hslash
  have hkept : '/' ∈ u.chars.filter (· ≠ '-') :=
    List.mem_filter.mpr ⟨by rwa [UUID.str, String.toList_ofList] at hslash, rfl⟩
  rw [UUID.chars_without_hyphens] at hkept
  exact slash_notMem_hexText _ _ hkept

end Slashes

section Prefixes
variable {config config' : Json} {work work' : ExecutionWork} {parameters effective : Json} {p p' : String}

theorem uuid_ne (u : UUID) : u.str ≠ "" := by
  intro h
  have hchars : u.chars = [] := String.ofList_eq_empty_iff.mp h
  have hdigits := congrArg List.length (UUID.chars_without_hyphens u)
  rw [hchars, List.filter_nil, length_hexText] at hdigits
  exact absurd hdigits (by decide)

theorem requiredText_str {text : String} (h : text ≠ "") : requiredText (some (.str text)) = some text :=
  if_neg h

theorem copyEnv_jobValues (c : Computation) (runId : UUID) (runFingerprint : String)
    (hmodel : c.modelId ≠ "") (himage : c.imageDigest ≠ "") :
    copyEnv (c.jobValues runId runFingerprint) = some ⟨c.modelId,
      String.ofList (lastPiece (splitList "@sha256:".toList c.imageDigest.toList)), runId.str⟩ := by
  have hvalues : (c.jobValues runId runFingerprint).get? "runId" = some (.str runId.str) := rfl
  have hrun : requiredText (some (.str runId.str)) = some runId.str :=
    requiredText_str (uuid_ne runId)
  have hid : requiredText (some (.str c.modelId)) = some c.modelId := requiredText_str hmodel
  have himage : requiredText (some (.str c.imageDigest)) = some c.imageDigest :=
    requiredText_str himage
  have hmodelValue : (c.jobValues runId runFingerprint).get? "model" = some (.obj [("id", .str c.modelId),
      ("mode", .str c.mode), ("image", .str c.imageDigest), ("command", .arr (c.arguments.map .str)),
      ("workingDir", .str c.workingDirectory), ("outputPath", .str c.outputDirectory)]) := rfl
  have hidValue : (Json.obj [("id", .str c.modelId), ("mode", .str c.mode), ("image", .str c.imageDigest),
      ("command", .arr (c.arguments.map .str)), ("workingDir", .str c.workingDirectory),
      ("outputPath", .str c.outputDirectory)]).get? "id" = some (.str c.modelId) := rfl
  have himageValue : (Json.obj [("id", .str c.modelId), ("mode", .str c.mode), ("image", .str c.imageDigest),
      ("command", .arr (c.arguments.map .str)), ("workingDir", .str c.workingDirectory),
      ("outputPath", .str c.outputDirectory)]).get? "image" = some (.str c.imageDigest) := rfl
  simp only [copyEnv, hmodelValue, hidValue, himageValue, hvalues, hid, himage, hrun, Option.bind_eq_bind,
    Option.bind_some]
  rfl

/-- The prefix of a registered release, in its segments. -/
theorem outputPrefix_ok (h : RegisterRelease.definition config = .ok work.release) : ∃ digits,
    work.outputPrefix = .ok (work.release.modelId ++ "/sha256-" ++ String.ofList digits ++ "/" ++ work.id.str ++
      "/outputs/") ∧ '/' ∉ digits ∧
    lastPiece (splitList "@sha256:".toList work.release.imageDigest.toList) = digits := by
  obtain ⟨-, himage, -⟩ := RegisterRelease.definition_checked h
  obtain ⟨name, digits, hsplit, hname, hdigits, hslash⟩ := pinned_split himage
  refine ⟨digits, ?_, hslash, lastPiece_pinned hname hdigits hsplit⟩
  rw [ExecutionWork.outputPrefix, digestOf_pinned hname hdigits hsplit]
  rfl

/-- The copy container uploads under the prefix that the worker lists. -/
theorem uploadPrefix_eq (h : RegisterRelease.definition config = .ok work.release)
    (hprepared : work.release.executionDefinition.prepare parameters = .ok effective) :
    ∃ values env, modelJobValues work.release effective work.id = .ok values ∧ copyEnv values = some env ∧
      work.outputPrefix = .ok env.uploadPrefix := by
  obtain ⟨mode, hmode, hprepared⟩ := bind_eq_ok.mp hprepared
  obtain rfl := Except.ok.inj hprepared
  obtain rfl := prepareMode_parameters hmode
  obtain ⟨-, hfound⟩ := prepareMode_ok.mp hmode
  obtain ⟨i, hi⟩ := Option.isSome_iff_exists.mp hfound
  have hcomputation : work.release.computation? mode = some (i.computation work.release mode) := by
    rw [ReleaseDefinition.computation?, hi, Option.map_some]
  obtain ⟨digits, hroot, -, hlast⟩ := outputPrefix_ok h
  obtain ⟨hkey, himage, -⟩ := RegisterRelease.definition_checked h
  have hmodelId : work.release.modelId ≠ "" := fun he => absurd (he ▸ hkey) (by decide)
  have himageDigest : work.release.imageDigest ≠ "" := fun he => absurd (he ▸ himage) (by decide)
  refine ⟨_, _, modelJobValues_ok.mpr ⟨_, hcomputation, rfl⟩,
    copyEnv_jobValues (i.computation work.release mode) _ _ hmodelId himageDigest, ?_⟩
  rw [hroot]
  change _ = Except.ok (work.release.modelId ++ "/sha256-" ++
    String.ofList (lastPiece (splitList "@sha256:".toList work.release.imageDigest.toList)) ++ "/" ++
      work.id.str ++ "/outputs/")
  rw [hlast]

/-- A key below the prefixes of two runs is below that of one run. -/
theorem sameRun_of_key {m m' : String} {sha sha' : List Char} {u u' : UUID} {rest rest' : List Char}
    (hm : '/' ∉ m.toList) (hm' : '/' ∉ m'.toList) (hsha : '/' ∉ sha) (hsha' : '/' ∉ sha')
    (h : (m ++ "/sha256-" ++ String.ofList sha ++ "/" ++ u.str ++ "/outputs/").toList ++ rest =
      (m' ++ "/sha256-" ++ String.ofList sha' ++ "/" ++ u'.str ++ "/outputs/").toList ++ rest') : u = u' := by
  have hsegments (m : String) (sha : List Char) (u : UUID) (rest : List Char) :
      (m ++ "/sha256-" ++ String.ofList sha ++ "/" ++ u.str ++ "/outputs/").toList ++ rest =
        m.toList ++ '/' :: (("sha256-".toList ++ sha) ++ '/' :: (u.str.toList ++
          '/' :: ("outputs/".toList ++ rest))) := by
    simp [String.toList_append]
  rw [hsegments, hsegments] at h
  have hdigest (sha : List Char) (hsha : '/' ∉ sha) : '/' ∉ "sha256-".toList ++ sha := by
    rw [List.mem_append, not_or]
    exact ⟨by decide, hsha⟩
  obtain ⟨-, h⟩ := cut_at hm hm' h
  obtain ⟨-, h⟩ := cut_at (hdigest sha hsha) (hdigest sha' hsha') h
  obtain ⟨hu, -⟩ := cut_at (slash_notMem_uuid u) (slash_notMem_uuid u') h
  exact UUID.str_injective (String.toList_injective hu)

/-- Below the prefixes of two runs there is no common key. -/
theorem outputPrefixes_disjoint (h : RegisterRelease.definition config = .ok work.release)
    (h' : RegisterRelease.definition config' = .ok work'.release) (hid : work.id ≠ work'.id)
    (hp : work.outputPrefix = .ok p) (hp' : work'.outputPrefix = .ok p') (key : List Char) :
    ¬ (p.toList <+: key ∧ p'.toList <+: key) := by
  rintro ⟨⟨rest, hrest⟩, rest', hrest'⟩
  obtain ⟨sha, hroot, hsha, -⟩ := outputPrefix_ok h
  obtain ⟨sha', hroot', hsha', -⟩ := outputPrefix_ok h'
  obtain rfl := Except.ok.inj (hp.symm.trans hroot)
  obtain rfl := Except.ok.inj (hp'.symm.trans hroot')
  have hkey := (RegisterRelease.definition_checked h).1
  have hkey' := (RegisterRelease.definition_checked h').1
  exact hid (sameRun_of_key (slash_notMem_key hkey) (slash_notMem_key hkey') hsha hsha' (hrest.trans hrest'.symm))

/-- What the check of a run's outputs sees and records is a listing of its prefix. -/
theorem collect_recorded {listing found : List Artifact} (h : collect work p listing = .ok found ∨
    ∃ code, collect work p listing = .error (.executionFailure code found)) : found = listing := by
  rcases h with h | ⟨code, h⟩
  · exact collect_ok h
  · exact (collect_failure h).1

/-- Outputs of different runs never mix, and the worker looks where the Job writes: `list` is the bucket's
listing of the keys with a prefix. -/
theorem outputs_never_mix (h : RegisterRelease.definition config = .ok work.release)
    (h' : RegisterRelease.definition config' = .ok work'.release) (hid : work.id ≠ work'.id)
    {list : String → List Artifact} (hlist : ∀ p, ∀ a ∈ list p, p.toList <+: a.objectKey.toList) :
    ∃ p p', work.outputPrefix = .ok p ∧ work'.outputPrefix = .ok p' ∧
      (∀ parameters effective, work.release.executionDefinition.prepare parameters = .ok effective →
        ∃ values env, modelJobValues work.release effective work.id = .ok values ∧ copyEnv values = some env ∧
          env.uploadPrefix = p) ∧
      ¬ p.toList <+: p'.toList ∧ ¬ p'.toList <+: p.toList ∧
      (∀ key : String, ¬ (p.toList <+: key.toList ∧ p'.toList <+: key.toList)) ∧
      (∀ a ∈ list p, ¬ p'.toList <+: a.objectKey.toList) ∧
      ∀ found, (collect work p (list p) = .ok found ∨
          ∃ code, collect work p (list p) = .error (.executionFailure code found)) →
        ∀ a ∈ found, ¬ p'.toList <+: a.objectKey.toList := by
  obtain ⟨sha, hp, -⟩ := outputPrefix_ok h
  obtain ⟨sha', hp', -⟩ := outputPrefix_ok h'
  have hdisjoint := outputPrefixes_disjoint h h' hid hp hp'
  have hseen : ∀ a ∈ list _, ¬ _ <+: a.objectKey.toList :=
    fun a ha hother => hdisjoint a.objectKey.toList ⟨hlist _ a ha, hother⟩
  refine ⟨_, _, hp, hp', fun parameters effective hprepared => ?_, fun hle => ?_, fun hle => ?_,
    fun key => hdisjoint key.toList, hseen, fun found hfound a ha => ?_⟩
  · obtain ⟨values, env, hvalues, henv, hroot⟩ := uploadPrefix_eq h hprepared
    exact ⟨values, env, hvalues, henv, Except.ok.inj (hroot.symm.trans hp)⟩
  · exact hdisjoint _ ⟨hle, List.prefix_refl _⟩
  · exact hdisjoint _ ⟨List.prefix_refl _, hle⟩
  · rw [collect_recorded hfound] at ha
    exact hseen a ha

end Prefixes

/-! Two runs of one release. -/
namespace Demo

def workOf (id : UUID) : ExecutionWork :=
  ⟨id, release, .obj [("mode", .str "fast")], fingerprint, some "science", none⟩

/-- A bucket with the outputs of the first run. -/
def bucket (outputPrefix : String) : List Artifact :=
  outputs.filter fun a => outputPrefix.toList.isPrefixOf a.objectKey.toList

theorem outputs_never_mix_two_runs : ∃ p p', (workOf 2).outputPrefix = .ok p ∧ (workOf 3).outputPrefix = .ok p' ∧
    ∀ a ∈ bucket p, ¬ p'.toList <+: a.objectKey.toList := by
  have hlist : ∀ p, ∀ a ∈ bucket p, p.toList <+: a.objectKey.toList :=
    fun p a ha => List.isPrefixOf_iff_prefix.mp (List.mem_filter.mp ha).2
  have hregistered (id : UUID) : RegisterRelease.definition config = .ok (workOf id).release := rfl
  have hid : (workOf 2).id ≠ (workOf 3).id := by decide
  obtain ⟨p, p', hp, hp', -, -, -, -, hseen, -⟩ :=
    outputs_never_mix (hregistered 2) (hregistered 3) hid hlist
  exact ⟨p, p', hp, hp', hseen⟩

end Demo

end Mic3
