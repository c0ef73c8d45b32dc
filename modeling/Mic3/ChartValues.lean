import Mic3.Computation
import Mic3.Documents
import Mic3.Lib.Regex

/-! The schema of the model chart's values beside what the catalog lets through. Both describe the same
texts by regular expressions; they part at the output directory, which the chart mounts. -/
namespace Mic3
open Regex

/-- The keywords that the chart's schema uses. -/
inductive Schema where
  | string (pattern : Option (Pattern Char)) (maxLength : Option ℕ)
  | array (minItems : ℕ) (items : Schema)
  | object (properties : List (String × Schema)) (required : List String)

mutual
def Schema.validates : Schema → Json → Bool
  | .string pattern maxLength, .str text =>
    pattern.all (·.found text.toList) && maxLength.all (text.toList.length ≤ ·)
  | .array minItems schema, .arr items => minItems ≤ items.length && items.all schema.validates
  | .object properties required, .obj fields =>
    required.all (· ∈ fields.map (·.1)) && validatesProperties properties fields
  | _, _ => false

/-- A property that is absent is no error. -/
def validatesProperties : List (String × Schema) → List (String × Json) → Bool
  | [], _ => true
  | (name, schema) :: properties, fields =>
    (fields.lookup name).all schema.validates && validatesProperties properties fields
end

/-- A character of `[a-z0-9-]`. -/
def keyInner (c : Char) : Bool := keyEdge c || c = '-'

/-- `.`, which is any character but a newline for Helm's matcher. -/
def dot (c : Char) : Bool := c ≠ '\n'

/-- An edge, or two with `middle` between them. -/
def edged (middle : Regex Char) : Regex Char := .seq (.cls keyEdge) (opt (.seq middle (.cls keyEdge)))

/-- `[a-z0-9](?:[a-z0-9-]{0,61}[a-z0-9])?`. -/
def keyPattern : Regex Char := edged (upTo (.cls keyInner) 61)

/-- `NAME@sha256:[0-9a-f]{64}`. -/
def pinned (name : Regex Char) : Regex Char :=
  .seq name (.seq (literal "@sha256:".toList) (times (.cls isLowerHex) 64))

/-- A character of `[^\s@]`. -/
def imageChar (c : Char) : Bool := !isSpace c && c ≠ '@'

/-- `[^\s@]+@sha256:[0-9a-f]{64}`. -/
def imagePattern : Regex Char := pinned (plus (.cls imageChar))

namespace ModelRunChart

/-- `^[a-z0-9]([a-z0-9-]*[a-z0-9])?$`, of at most 63 characters. -/
def name : Schema := .string (some ⟨true, edged (.star (.cls keyInner)), true⟩) (some 63)

/-- `^.+@sha256:[0-9a-f]{64}$`. -/
def image : Schema := .string (some ⟨true, pinned (plus (.cls dot)), true⟩) none

def command : Schema := .array 1 (.string none none)

/-- `^/`. -/
def workingDir : Schema := .string (some ⟨true, literal ['/'], false⟩) none

/-- `^/.+`. -/
def outputPath : Schema :=
  .string (some ⟨true, .seq (.cls (· = '/')) (plus (.cls dot)), false⟩) none

/-- `[0-9a-f]{n}` and a hyphen. -/
def group (n : ℕ) (rest : Regex Char) : Regex Char :=
  .seq (times (.cls isLowerHex) n) (.seq (.cls (· = '-')) rest)

/-- `^[0-9a-f]{8}-[0-9a-f]{4}-[0-9a-f]{4}-[0-9a-f]{4}-[0-9a-f]{12}$`. -/
def runId : Schema :=
  .string (some ⟨true, group 8 (group 4 (group 4 (group 4 (times (.cls isLowerHex) 12)))), true⟩) none

/-- `values.schema.json`, without the properties that only operators set. -/
def schema : Schema := .object [
  ("model", .object [("id", name), ("mode", name), ("image", image),
    ("command", command), ("workingDir", workingDir), ("outputPath", outputPath)] []),
  ("runId", runId)] ["runId"]

end ModelRunChart

section Keys
variable {middle : Regex Char} {w : List Char} {value : String}

theorem edged_iff : (edged middle).fullmatch w = true ↔ ∃ a rest, w = a :: rest ∧ keyEdge a = true ∧
    (rest = [] ∨ ∃ u b, middle.fullmatch u = true ∧ keyEdge b = true ∧ rest = u ++ [b]) := by
  cases w with
  | nil => simp [edged, fullmatch_cls_nil]
  | cons a rest =>
    rw [edged, fullmatch_cls_cons, fullmatch_opt, fullmatch_seq]
    constructor
    · rintro ⟨ha, hnil | ⟨u, v, hu, hv, rfl⟩⟩
      · exact ⟨a, rest, rfl, ha, .inl hnil⟩
      · obtain ⟨b, hb, rfl⟩ := fullmatch_cls.mp hv
        exact ⟨a, _, rfl, ha, .inr ⟨u, b, hu, hb, rfl⟩⟩
    · rintro ⟨a', rest', h, ha, hrest⟩
      obtain ⟨rfl, rfl⟩ := List.cons.inj h
      refine ⟨ha, hrest.imp id ?_⟩
      rintro ⟨u, b, hu, hb, rfl⟩
      exact ⟨u, [b], hu, fullmatch_cls.mpr ⟨b, hb, rfl⟩, rfl⟩

theorem keyInner_of_edge {c : Char} (h : keyEdge c = true) : keyInner c = true := by
  simp [keyInner, h]

/-- What both sides ask of an identifier. -/
theorem isKey_cons {a : Char} {rest : List Char} (h : value.toList = a :: rest) :
    isKey value = true ↔ rest.length ≤ 62 ∧ keyEdge a = true ∧
      (rest = [] ∨ ∃ u b, (∀ c ∈ u, keyInner c = true) ∧ keyEdge b = true ∧ rest = u ++ [b]) := by
  have hcheck : isKey value = true ↔ ((rest.length ≤ 62 ∧ ∀ c ∈ a :: rest, keyInner c = true) ∧
      keyEdge a = true) ∧ (a :: rest).getLast?.any keyEdge = true := by
    have hlength : (a :: rest).length ≤ 63 ↔ rest.length ≤ 62 := Nat.succ_le_succ_iff
    simp only [isKey, h, hlength, keyInner, List.head?_cons, Option.any_some, Bool.and_eq_true, decide_eq_true_eq,
      List.all_eq_true]
  rw [hcheck]
  constructor
  · rintro ⟨⟨⟨hlen, hinner⟩, ha⟩, hlast⟩
    refine ⟨hlen, ha, ?_⟩
    rcases List.eq_nil_or_concat rest with rfl | ⟨u, b, rfl⟩
    · exact .inl rfl
    · have hb : (a :: (u ++ [b])).getLast? = some b := by
        rw [← List.cons_append, List.getLast?_concat]
      rw [List.concat_eq_append, hb] at hlast
      refine .inr ⟨u, b, fun c hc => hinner c ?_, hlast, List.concat_eq_append⟩
      simp [hc]
  · rintro ⟨hlen, ha, rfl | ⟨u, b, hu, hb, rfl⟩⟩
    · exact ⟨⟨⟨hlen, by simpa using keyInner_of_edge ha⟩, ha⟩, ha⟩
    · refine ⟨⟨⟨hlen, fun c hc => ?_⟩, ha⟩, ?_⟩
      · rcases List.mem_cons.mp hc with rfl | hc
        · exact keyInner_of_edge ha
        · rcases List.mem_append.mp hc with hc | hc
          · exact hu c hc
          · exact keyInner_of_edge (List.mem_singleton.mp hc ▸ hb)
      · rw [← List.cons_append, List.getLast?_concat]
        exact hb

/-- The check of identifiers is the regular expression of the source. -/
theorem isKey_iff : isKey value = true ↔ keyPattern.fullmatch value.toList = true := by
  rw [keyPattern, edged_iff]
  cases hw : value.toList with
  | nil => simp [isKey, hw]
  | cons a rest =>
    rw [isKey_cons hw]
    simp only [fullmatch_upTo_cls]
    constructor
    · rintro ⟨hlen, ha, hnil | ⟨u, b, hu, hb, rfl⟩⟩
      · exact ⟨a, rest, rfl, ha, .inl hnil⟩
      · have hmiddle : u.length ≤ 61 := by
          rw [List.length_append, List.length_singleton] at hlen
          omega
        exact ⟨a, _, rfl, ha, .inr ⟨u, b, ⟨hmiddle, hu⟩, hb, rfl⟩⟩
    · rintro ⟨a', rest', h, ha, hrest⟩
      obtain ⟨rfl, rfl⟩ := List.cons.inj h
      rcases hrest with rfl | ⟨u, b, ⟨hmiddle, hu⟩, hb, rfl⟩
      · exact ⟨Nat.zero_le 62, ha, .inl rfl⟩
      · have hlen : (u ++ [b]).length ≤ 62 := by
          rw [List.length_append, List.length_singleton]
          omega
        exact ⟨hlen, ha, .inr ⟨u, b, hu, hb, rfl⟩⟩

/-- An identifier is a name for the chart. -/
theorem name_of_isKey (h : isKey value = true) : ModelRunChart.name.validates (.str value) = true := by
  cases hw : value.toList with
  | nil => simp [isKey, hw] at h
  | cons a rest =>
    obtain ⟨hlen, ha, hrest⟩ := (isKey_cons hw).mp h
    have hfound : (edged (.star (.cls keyInner))).fullmatch (a :: rest) = true := by
      refine edged_iff.mpr ⟨a, rest, rfl, ha, hrest.imp id ?_⟩
      rintro ⟨u, b, hu, hb, hrest⟩
      exact ⟨u, b, fullmatch_star_cls.mpr hu, hb, hrest⟩
    have hmax : (a :: rest).length ≤ 63 := Nat.succ_le_succ hlen
    simp only [ModelRunChart.name, Schema.validates, hw, Option.all_some, Pattern.found_anchored, hfound,
      decide_eq_true hmax, Bool.and_self]

end Keys

section Images
variable {image : String}

theorem pinned_iff {name : Regex Char} {w : List Char} : (pinned name).fullmatch w = true ↔
    ∃ u digits, name.fullmatch u = true ∧ digits.length = 64 ∧ (∀ c ∈ digits, isLowerHex c = true) ∧
      w = u ++ ("@sha256:".toList ++ digits) := by
  rw [pinned, fullmatch_seq]
  constructor
  · rintro ⟨u, v, hu, hv, rfl⟩
    obtain ⟨text, digits, htext, hdigits, rfl⟩ := fullmatch_seq.mp hv
    obtain rfl := fullmatch_literal.mp htext
    obtain ⟨hlen, hall⟩ := fullmatch_times_cls.mp hdigits
    exact ⟨u, digits, hu, hlen, hall, rfl⟩
  · rintro ⟨u, digits, hu, hlen, hall, rfl⟩
    exact ⟨u, _, hu, fullmatch_seq.mpr ⟨_, digits, fullmatch_literal.mpr rfl,
      fullmatch_times_cls.mpr ⟨hlen, hall⟩, rfl⟩, rfl⟩

theorem isPinnedImage_split {w : List Char} (hw : image.toList = w) : isPinnedImage image = true ↔
    w.takeWhile (· ≠ '@') ≠ [] ∧ (∀ c ∈ w.takeWhile (· ≠ '@'), isSpace c = false) ∧
      (w.dropWhile (· ≠ '@')).take 8 = "@sha256:".toList ∧
      ((w.dropWhile (· ≠ '@')).drop 8).length = 64 ∧
      ∀ c ∈ (w.dropWhile (· ≠ '@')).drop 8, isLowerHex c = true := by
  unfold isPinnedImage
  rw [List.span_eq_takeWhile_dropWhile, hw]
  simp only [Bool.and_eq_true, decide_eq_true_eq, Bool.not_eq_true', List.any_eq_false,
    List.all_eq_true, Bool.not_eq_true, and_assoc]

/-- The check of images is the regular expression of the source. -/
theorem isPinnedImage_iff : isPinnedImage image = true ↔ imagePattern.fullmatch image.toList = true := by
  rw [imagePattern, pinned_iff]
  simp only [fullmatch_plus_cls]
  constructor
  · intro h
    obtain ⟨hne, hspace, hlit, hlen, hall⟩ := (isPinnedImage_split rfl).mp h
    refine ⟨_, _, ⟨hne, fun c hc => ?_⟩, hlen, hall, ?_⟩
    · have hat : decide (c ≠ '@') = true := List.all_eq_true.mp List.all_takeWhile c hc
      simp only [imageChar, hspace c hc, hat, Bool.not_false, Bool.and_self]
    · rw [← hlit, List.take_append_drop, List.takeWhile_append_dropWhile]
  · rintro ⟨u, digits, ⟨hne, hu⟩, hlen, hall, hw⟩
    have hat : ∀ c ∈ u, decide (c ≠ '@') = true := fun c hc => (Bool.and_eq_true_iff.mp (hu c hc)).2
    have htake : image.toList.takeWhile (· ≠ '@') = u := by
      rw [hw, List.takeWhile_append_of_pos hat]
      simp
    have hdrop : image.toList.dropWhile (· ≠ '@') = "@sha256:".toList ++ digits := by
      rw [hw, List.dropWhile_append_of_pos hat]
      simp
    refine (isPinnedImage_split rfl).mpr ?_
    rw [htake, hdrop]
    refine ⟨hne, fun c hc => ?_, rfl, hlen, hall⟩
    simpa using (Bool.and_eq_true_iff.mp (hu c hc)).1

/-- A pinned image is an image for the chart. -/
theorem image_of_isPinnedImage (h : isPinnedImage image = true) :
    ModelRunChart.image.validates (.str image) = true := by
  obtain ⟨u, digits, hu, hlen, hall, hw⟩ := pinned_iff.mp (isPinnedImage_iff.mp h)
  obtain ⟨hne, hu⟩ := fullmatch_plus_cls.mp hu
  have hdot : ∀ c ∈ u, dot c = true := by
    intro c hc
    -- A newline is whitespace.
    have hspace : isSpace '\n' = true := by decide
    have hc := hu c hc
    by_contra hnewline
    obtain rfl : c = '\n' := by simpa [dot] using hnewline
    simp [imageChar, hspace] at hc
  have hfound : (pinned (plus (.cls dot))).fullmatch image.toList = true :=
    pinned_iff.mpr ⟨u, digits, fullmatch_plus_cls.mpr ⟨hne, hdot⟩, hlen, hall, hw⟩
  simp only [ModelRunChart.image, Schema.validates, Option.all_some, Option.all_none,
    Pattern.found_anchored, hfound, Bool.and_self]

end Images

section Directories
variable {path : String}

/-- Whether the chart can mount an output directory there: below the root, and on the first line. -/
def isMountable (path : String) : Bool := (path.toList.drop 1).head?.any dot

theorem isAbsolute_of_isDirectory (h : Invocation.isDirectory path = true) :
    ∃ rest, path.toList = '/' :: rest := by
  simp only [Invocation.isDirectory, Bool.and_eq_true, PurePosixPath.isAbsolute, decide_eq_true_eq] at h
  exact List.head?_eq_some_iff.mp h.1.2

theorem workingDir_of_isDirectory (h : Invocation.isDirectory path = true) :
    ModelRunChart.workingDir.validates (.str path) = true := by
  obtain ⟨rest, hpath⟩ := isAbsolute_of_isDirectory h
  have hfound : (Pattern.mk true (literal ['/']) false).found path.toList = true :=
    Pattern.found_prefix.mpr ⟨['/'], rest, fullmatch_literal.mpr rfl, hpath.symm⟩
  simp only [ModelRunChart.workingDir, Schema.validates, Option.all_some, Option.all_none, hfound,
    Bool.and_self]

/-- The chart refuses the root, and a directory whose name starts with a newline. -/
theorem outputPath_of_isDirectory (h : Invocation.isDirectory path = true) :
    ModelRunChart.outputPath.validates (.str path) = isMountable path := by
  obtain ⟨rest, hpath⟩ := isAbsolute_of_isDirectory h
  rw [Bool.eq_iff_iff]
  simp only [ModelRunChart.outputPath, Schema.validates, Option.all_some, Option.all_none,
    Bool.and_true, isMountable, hpath, List.drop_one, List.tail_cons]
  rw [Pattern.found_prefix]
  constructor
  · rintro ⟨u, v, hu, huv⟩
    cases u with
    | nil => simp [fullmatch_cls_nil] at hu
    | cons a u =>
      obtain ⟨-, hu⟩ := fullmatch_cls_cons.mp hu
      obtain ⟨hne, hu⟩ := fullmatch_plus_cls.mp hu
      obtain ⟨-, rfl⟩ := List.cons.inj huv
      cases u with
      | nil => exact absurd rfl hne
      | cons b u => exact hu b List.mem_cons_self
  · intro hdot
    cases rest with
    | nil => contradiction
    | cons c rest =>
      refine ⟨['/', c], rest, fullmatch_cls_cons.mpr ⟨rfl, ?_⟩, rfl⟩
      exact fullmatch_plus_cls.mpr ⟨List.cons_ne_nil c [], List.forall_mem_singleton.mpr hdot⟩

end Directories

section RunIds

theorem isLowerHex_hexDigit {n : ℕ} (hn : n < 16) : isLowerHex (Json.hexDigit n) = true := by
  interval_cases n <;> decide

theorem isLowerHex_hexText (w n : ℕ) : ∀ c ∈ hexText w n, isLowerHex c = true := by
  induction w generalizing n with
  | zero => exact List.forall_mem_nil _
  | succ w ih =>
    rw [hexText, List.forall_mem_append, List.forall_mem_singleton]
    exact ⟨ih _, isLowerHex_hexDigit (Nat.mod_lt n (by decide))⟩

theorem group_append {n : ℕ} {rest : Regex Char} {digits w : List Char} (hlen : digits.length = n)
    (hall : ∀ c ∈ digits, isLowerHex c = true) (hw : rest.fullmatch w = true) :
    (ModelRunChart.group n rest).fullmatch (digits ++ '-' :: w) = true :=
  fullmatch_seq.mpr ⟨digits, '-' :: w, fullmatch_times_cls.mpr ⟨hlen, hall⟩,
    fullmatch_cls_cons.mpr ⟨rfl, hw⟩, rfl⟩

/-- A run id is one for the chart. -/
theorem runId_validates (id : UUID) : ModelRunChart.runId.validates (.str id.str) = true := by
  have hdigits : ∀ c ∈ hexText 32 id.toNat, isLowerHex c = true := isLowerHex_hexText 32 _
  have hlen : (hexText 32 id.toNat).length = 32 := length_hexText ..
  have hgroup (m n : ℕ) (h : m + n ≤ 32) : (((hexText 32 id.toNat).drop m).take n).length = n := by
    rw [List.length_take, List.length_drop, hlen]
    omega
  have hin (m n : ℕ) : ∀ c ∈ ((hexText 32 id.toNat).drop m).take n, isLowerHex c = true :=
    fun c hc => hdigits c (List.mem_of_mem_drop (List.mem_of_mem_take hc))
  have hlast : (times (.cls isLowerHex) 12).fullmatch ((hexText 32 id.toNat).drop 20) = true := by
    refine fullmatch_times_cls.mpr ⟨?_, fun c hc => hdigits c (List.mem_of_mem_drop hc)⟩
    rw [List.length_drop, hlen]
  have hfound : (ModelRunChart.group 8 (ModelRunChart.group 4 (ModelRunChart.group 4 (ModelRunChart.group 4
      (times (.cls isLowerHex) 12))))).fullmatch id.chars = true := by
    simp only [UUID.chars, List.append_assoc, List.cons_append]
    refine group_append (hgroup 0 8 (by decide)) (hin 0 8) ?_
    refine group_append (hgroup 8 4 (by decide)) (hin 8 4) ?_
    refine group_append (hgroup 12 4 (by decide)) (hin 12 4) ?_
    exact group_append (hgroup 16 4 (by decide)) (hin 16 4) hlast
  simp only [ModelRunChart.runId, Schema.validates, Option.all_some, Option.all_none,
    Pattern.found_anchored, Bool.and_true, UUID.str, String.toList_ofList, hfound]

end RunIds

/-! What registration has checked. -/

theorem Invocation.fromDict_checked {value : Json} {i : Invocation} (h : fromDict value = .ok i) :
    i.arguments ≠ [] ∧ isDirectory i.workingDirectory = true ∧ isDirectory i.outputDirectory = true := by
  have hdirectory {value : Json} {path : String} (h : directory value = .ok path) : isDirectory path = true := by
    obtain rfl := directory_read h
    by_contra hno
    simp [directory, hno, throw, throwThe, MonadExceptOf.throw] at h
  unfold fromDict at h
  split at h
  · simp only at h
    split at h
    · contradiction
    · obtain ⟨arguments, hargs, h⟩ := bind_eq_ok.mp h
      obtain ⟨workingDirectory, hwork, h⟩ := bind_eq_ok.mp h
      obtain ⟨outputDirectory, hout, h⟩ := bind_eq_ok.mp h
      obtain ⟨requirements, -, h⟩ := bind_eq_ok.mp h
      obtain rfl := Except.ok.inj h
      refine ⟨?_, hdirectory hwork, hdirectory hout⟩
      rintro rfl
      cases (argumentList_read hargs)
  · contradiction

theorem isKey_of_validateKey {value key : String} (h : validateKey value = .ok key) : isKey key = true := by
  obtain rfl := ExecutionDefinition.validateKey_read h
  unfold validateKey at h
  split at h
  · assumption
  · contradiction

theorem ExecutionDefinition.fromDict_checked {value : Json} {d : ExecutionDefinition} {mode : String}
    {i : Invocation} (h : fromDict value = .ok d) (hmode : d.mode? mode = some i) :
    isKey mode = true ∧ ∃ stored, Invocation.fromDict stored = .ok i := by
  obtain ⟨before, after, hsplit, -⟩ := List.lookup_eq_some_iff.mp hmode
  have hmem : (mode, i) ∈ d.modes := by simp [hsplit]
  unfold fromDict at h
  split at h
  · split at h
    · contradiction
    · split at h
      · contradiction
      · obtain ⟨modes, hmodes, h⟩ := bind_eq_ok.mp h
        obtain rfl := Except.ok.inj h
        obtain ⟨item, hitem⟩ := mapM_source hmodes _ hmem
        obtain ⟨key, hkey, hitem⟩ := bind_eq_ok.mp hitem
        obtain ⟨invocation, hinvocation, hitem⟩ := bind_eq_ok.mp hitem
        obtain ⟨rfl, rfl⟩ := Prod.mk.inj (Except.ok.inj hitem)
        exact ⟨isKey_of_validateKey hkey, _, hinvocation⟩
      · contradiction
  · contradiction

theorem RegisterRelease.definition_checked {config : Json} {d : ReleaseDefinition}
    (h : definition config = .ok d) : isKey d.modelId = true ∧ isPinnedImage d.imageDigest = true ∧
      ∃ stored, ExecutionDefinition.fromDict stored = .ok d.executionDefinition := by
  unfold definition at h
  split at h
  · simp only at h
    split at h
    · contradiction
    · obtain ⟨text, -, h⟩ := bind_eq_ok.mp h
      obtain ⟨displayName, -, h⟩ := bind_eq_ok.mp h
      obtain ⟨imageDigest, -, h⟩ := bind_eq_ok.mp h
      obtain ⟨modelId, hkey, h⟩ := bind_eq_ok.mp h
      split at h
      · contradiction
      · rename_i himage
        obtain ⟨execution, hexecution, h⟩ := bind_eq_ok.mp h
        obtain rfl := Except.ok.inj h
        exact ⟨isKey_of_validateKey hkey, not_not.mp himage, _, hexecution⟩
  · contradiction

theorem ModelRunChart.command_validates (arguments : List String) :
    command.validates (.arr (arguments.map .str)) = decide (arguments ≠ []) := by
  have hstrings : (arguments.map Json.str).all (Schema.string none none).validates = true := by
    rw [List.all_map]
    exact List.all_eq_true.mpr fun _ _ => rfl
  rw [command, Schema.validates, hstrings, Bool.and_true, List.length_map]
  exact decide_eq_decide.mpr List.length_pos_iff

/-- Everything the chart asks of the values of a computation. -/
theorem ModelRunChart.schema_validates (c : Computation) (runId : UUID) (runFingerprint : String) :
    schema.validates (c.jobValues runId runFingerprint) =
      (name.validates (.str c.modelId) && (name.validates (.str c.mode) &&
        (image.validates (.str c.imageDigest) && (decide (c.arguments ≠ []) &&
          (workingDir.validates (.str c.workingDirectory) &&
            outputPath.validates (.str c.outputDirectory)))))) := by
  simp [schema, Computation.jobValues, Schema.validates, validatesProperties, List.lookup_cons, runId_validates,
    command_validates]

/-- The parameters that a definition accepts. -/
theorem ExecutionDefinition.prepare_ok {d : ExecutionDefinition} {parameters effective : Json}
    (h : d.prepare parameters = .ok effective) :
    ∃ mode i, parameters = modeParameters mode ∧ effective = parameters ∧ d.mode? mode = some i := by
  obtain ⟨mode, hmode, h⟩ := bind_eq_ok.mp h
  obtain rfl := Except.ok.inj h
  unfold prepareMode at hmode
  split at hmode
  · rename_i members
    split at hmode
    · contradiction
    · rename_i hkeys
      obtain ⟨⟨key, value⟩, rfl, rfl⟩ := List.map_eq_singleton_iff.mp (not_not.mp hkeys)
      have hget : (Json.obj [("mode", value)]).get? "mode" = some value := rfl
      split at hmode
      · rename_i text hvalue
        obtain rfl : value = .str text := Option.some.inj (hget.symm.trans hvalue)
        split at hmode
        · obtain rfl := Except.ok.inj hmode
          obtain ⟨i, hi⟩ := Option.isSome_iff_exists.mp ‹_›
          exact ⟨text, i, rfl, rfl, hi⟩
        · contradiction
      · contradiction
  · contradiction

/-- Every registrable release can be rendered, but for a mode whose output directory the chart cannot mount:
the values of any run pass the chart's schema exactly when that directory is below the root and its first
line is not empty. -/
theorem rendered_values_valid {config parameters effective : Json} {d : ReleaseDefinition}
    (hd : RegisterRelease.definition config = .ok d)
    (hp : d.executionDefinition.prepare parameters = .ok effective) (runId : UUID) :
    ∃ i values, d.executionDefinition.resolve effective = .ok i ∧
      modelJobValues d parameters runId = .ok values ∧
      (ModelRunChart.schema.validates values = true ↔ isMountable i.outputDirectory = true) := by
  obtain ⟨hid, himage, stored, hexecution⟩ := RegisterRelease.definition_checked hd
  obtain ⟨mode, i, rfl, rfl, hmode⟩ := ExecutionDefinition.prepare_ok hp
  obtain ⟨hkey, stored, hinvocation⟩ := ExecutionDefinition.fromDict_checked hexecution hmode
  obtain ⟨hargs, hwork, hout⟩ := Invocation.fromDict_checked hinvocation
  have hcomputation : d.computation? mode = some (i.computation d mode) := by
    rw [ReleaseDefinition.computation?, hmode, Option.map_some]
  refine ⟨i, _, computation_selected hmode, modelJobValues_ok.mpr ⟨_, hcomputation, rfl⟩, ?_⟩
  rw [ModelRunChart.schema_validates]
  simp only [Invocation.computation, name_of_isKey hid, name_of_isKey hkey, image_of_isPinnedImage himage,
    workingDir_of_isDirectory hwork, outputPath_of_isDirectory hout, hargs, ne_eq, not_false_eq_true,
    decide_true, Bool.true_and]

/-! A release of one mode with this output directory, as it is configured and as it is registered. -/

def sampleImage : String := "demo@sha256:aaaaaaaaaaaaaaaaaaaaaaaaaaaaaaaaaaaaaaaaaaaaaaaaaaaaaaaaaaaaaaaa"

def sampleConfig (outputDirectory : String) : Json := .obj [("model_id", .str "demo"),
  ("display_name", .str "Demo"), ("image_digest", .str sampleImage),
  ("execution_definition", .obj [("modes", .obj [("fast", .obj [("arguments", .arr [.str "solve"]),
    ("working_directory", .str "/work"), ("output_directory", .str outputDirectory)])])])]

def sampleRelease (outputDirectory : String) : ReleaseDefinition :=
  ⟨"demo", "Demo", sampleImage, ⟨[("fast", ⟨["solve"], "/work", outputDirectory, ⟨[]⟩⟩)]⟩⟩

theorem rendered_values_valid_out : ∃ i values,
    (sampleRelease "/out").executionDefinition.resolve (.obj [("mode", .str "fast")]) = .ok i ∧
    modelJobValues (sampleRelease "/out") (.obj [("mode", .str "fast")]) 2#128 = .ok values ∧
    (ModelRunChart.schema.validates values = true ↔ isMountable i.outputDirectory = true) := by
  have hd : RegisterRelease.definition (sampleConfig "/out") = .ok (sampleRelease "/out") := rfl
  exact rendered_values_valid hd rfl 2#128

/-- The catalog lets outputs in the root through, and the chart does not. -/
theorem root_outputs_invalid : ¬ ∀ config d parameters effective runId values,
    RegisterRelease.definition config = .ok d → d.executionDefinition.prepare parameters = .ok effective →
    modelJobValues d parameters runId = .ok values → ModelRunChart.schema.validates values = true := by
  intro h
  have hcomputation : (sampleRelease "/").computation? "fast" =
    some ⟨"demo", sampleImage, "fast", ["solve"], "/work", "/"⟩ := rfl
  have hvalues : modelJobValues (sampleRelease "/") (ExecutionDefinition.modeParameters "fast") 2#128 = _ :=
    modelJobValues_ok.mpr ⟨_, hcomputation, rfl⟩
  have hvalid := h (sampleConfig "/") (sampleRelease "/") _ _ 2#128 _ rfl rfl hvalues
  have houtput : ModelRunChart.outputPath.validates (.str "/") = false := by decide
  simp [ModelRunChart.schema_validates, houtput] at hvalid

end Mic3
