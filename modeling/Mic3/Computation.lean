import Mic3.Configuration
import Mic3.Lib.Encoding

/-! A run's computation, which its fingerprint identifies: the canonical text that is hashed tells the model,
the image, the mode and its invocation apart from all others. -/
namespace Mic3
open Encoding

namespace Json

/-- The character that an escape at the start of a text stands for, and the rest. -/
def unescape : List Char → Option (Char × List Char)
  | '\\' :: '"' :: rest => some ('"', rest)
  | '\\' :: '\\' :: rest => some ('\\', rest)
  | '\\' :: 'n' :: rest => some ('\n', rest)
  | '\\' :: 'r' :: rest => some ('\r', rest)
  | '\\' :: 't' :: rest => some ('\t', rest)
  | '\\' :: 'f' :: rest => some (Char.ofNat 12, rest)
  | '\\' :: 'b' :: rest => some (Char.ofNat 8, rest)
  | '\\' :: 'u' :: a :: b :: c :: d :: rest =>
    (hexValue [a, b, c, d]).map fun n => (Char.ofNat n, rest)
  | c :: rest => some (c, rest)
  | [] => none

theorem unescape_unit {n : ℕ} (hn : n < 32) (rest : List Char) :
    unescape (unit n ++ rest) = some (Char.ofNat n, rest) := by
  have hvalue : hexValue [hexDigit (n / 4096 % 16), hexDigit (n / 256 % 16), hexDigit (n / 16 % 16),
      hexDigit (n % 16)] = some n := by
    interval_cases n <;> decide
  simp only [unit, List.cons_append, List.nil_append, unescape, hvalue, Option.map_some]

theorem unescape_escape (c : Char) (rest : List Char) :
    unescape (escape false c ++ rest) = some (c, rest) := by
  unfold escape
  split_ifs with hquote hslash hn hr ht hf hb hcontrol hwide
  · subst hquote; rfl
  · subst hslash; rfl
  · subst hn; rfl
  · subst hr; rfl
  · subst ht; rfl
  · have hc : Char.ofNat 12 = c := by rw [← hf, Char.ofNat_toNat]
    exact hc ▸ rfl
  · have hc : Char.ofNat 8 = c := by rw [← hb, Char.ofNat_toNat]
    exact hc ▸ rfl
  · rw [unescape_unit hcontrol, Char.ofNat_toNat]
  · simp at hwide
  · simp at hwide
  · -- Any other character stands for itself.
    simp only [List.cons_append, List.nil_append]
    unfold unescape
    split <;> simp_all

theorem escape_avoids : Avoids (escape false) '"' := by
  intro c r s h
  have hleft := unescape_escape c r
  rw [h] at hleft
  obtain ⟨rfl, -⟩ := Prod.mk.inj (Option.some.inj hleft)
  exact absurd (List.cons.inj h).1 (by decide)

theorem quote_delimits : SelfDelimiting (quote false) := by
  have hchars : SelfDelimiting fun cs : List Char => cs.flatMap (escape false) ++ ['"'] :=
    (SelfDelimiting.of_decode unescape_escape).terminated escape_avoids
  have htoList : Function.Injective String.toList := fun _ _ h => String.toList_injective h
  exact (hchars.comp htoList).after ['"']

theorem quote_avoids {stop : Char} (h : stop ≠ '"') : Avoids (quote false) stop :=
  fun _ _ _ heq => h (List.cons.inj heq).1.symm

end Json

/-- What a run computes: the model, its image, the mode and the mode's invocation. -/
structure Computation where
  modelId : String
  imageDigest : String
  mode : String
  arguments : List String
  workingDirectory : String
  outputDirectory : String
  deriving DecidableEq

def Invocation.computation (i : Invocation) (d : ReleaseDefinition) (mode : String) : Computation :=
  ⟨d.modelId, d.imageDigest, mode, i.arguments, i.workingDirectory, i.outputDirectory⟩

/-- The computation that a release has for a mode. -/
def ReleaseDefinition.computation? (d : ReleaseDefinition) (mode : String) : Option Computation :=
  (d.executionDefinition.mode? mode).map fun i => i.computation d mode

namespace Computation

/-- The payload that is hashed. -/
def payload (c : Computation) : Json :=
  .obj [("model_id", .str c.modelId), ("image_digest", .str c.imageDigest),
    ("execution_definition", .obj [("arguments", .arr (c.arguments.map .str)),
      ("working_directory", .str c.workingDirectory), ("output_directory", .str c.outputDirectory)]),
    ("parameters", ExecutionDefinition.modeParameters c.mode)]

/-- The canonical text. -/
def text (c : Computation) : List Char := c.payload.dumps true false

/-- The values that the run's Job is rendered from. -/
def jobValues (c : Computation) (runId : UUID) (runFingerprint : String) : Json :=
  .obj [("runId", .str runId.str), ("runFingerprint", .str runFingerprint), ("model", .obj [
    ("id", .str c.modelId), ("mode", .str c.mode), ("image", .str c.imageDigest),
    ("command", .arr (c.arguments.map .str)), ("workingDir", .str c.workingDirectory),
    ("outputPath", .str c.outputDirectory)])]

theorem dumpsItems_str (args : List String) :
    Json.dumpsItems true false (args.map .str) = args.map (Json.quote false) := by
  induction args with
  | nil => rfl
  | cons arg args ih => simp only [List.map_cons, Json.dumpsItems, Json.dumps, ih]

/-- A key and the colon. -/
def label (key : String) : List Char := Json.quote false key ++ [':']

/-- The canonical text, piece by piece in the order of the sorted keys. -/
theorem text_eq (c : Computation) : c.text =
    ('{' :: label "execution_definition" ++ '{' :: label "arguments" ++ ['[']) ++
      (separated (Json.quote false) ',' ']' c.arguments ++
        ((',' :: label "output_directory") ++ (Json.quote false c.outputDirectory ++
          ((',' :: label "working_directory") ++ (Json.quote false c.workingDirectory ++
            (('}' :: ',' :: label "image_digest") ++ (Json.quote false c.imageDigest ++
              ((',' :: label "model_id") ++ (Json.quote false c.modelId ++
                ((',' :: label "parameters" ++ '{' :: label "mode") ++ (Json.quote false c.mode ++
                  ['}', '}']))))))))))) := by
  simp [text, payload, ExecutionDefinition.modeParameters, Json.dumps, Json.dumpsFields, dumpsItems_str,
    Json.member, label, separated, List.intercalate]

theorem text_injective : Function.Injective text := by
  have hquote := Json.quote_delimits
  have hargs : SelfDelimiting (separated (Json.quote false) ',' ']') :=
    hquote.separated (Json.quote_avoids (by decide)) (by decide)
  have hmode := (hquote.before ['}', '}']).after (',' :: label "parameters" ++ '{' :: label "mode")
  have hmodel := (hquote.append hmode).after (',' :: label "model_id")
  have himage := (hquote.append hmodel).after ('}' :: ',' :: label "image_digest")
  have hworking := (hquote.append himage).after (',' :: label "working_directory")
  have houtput := (hquote.append hworking).after (',' :: label "output_directory")
  have hall := (hargs.append houtput).after
    ('{' :: label "execution_definition" ++ '{' :: label "arguments" ++ ['['])
  intro c c' h
  rw [text_eq, text_eq] at h
  have hfields : (c.arguments, c.outputDirectory, c.workingDirectory, c.imageDigest, c.modelId, c.mode) =
      (c'.arguments, c'.outputDirectory, c'.workingDirectory, c'.imageDigest, c'.modelId, c'.mode) :=
    hall.injective h
  simp only [Prod.mk.injEq] at hfields
  obtain ⟨hargs, houtput, hworking, himage, hmodel, hmode⟩ := hfields
  cases c
  cases c'
  simp_all

theorem encodable_strings (args : List String) : Json.encodableItems (args.map .str) = true := by
  induction args with
  | nil => rfl
  | cons arg args ih => simp only [List.map_cons, Json.encodableItems, Json.encodable, Json.numberEncodable, ih,
      Bool.and_self]

theorem payload_encodable (c : Computation) : c.payload.encodable = true := by
  simp [payload, ExecutionDefinition.modeParameters, Json.encodable, Json.encodableFields,
    Json.numberEncodable, encodable_strings]

/-- SHA-256 tells the canonical texts of two computations apart. -/
def NoCollision (c c' : Computation) : Prop :=
  Sha256.digest (utf8 c.text) = Sha256.digest (utf8 c'.text) → utf8 c.text = utf8 c'.text

end Computation

section Bytes

theorem utf8_injective : Function.Injective utf8 := by
  intro a b h
  have hbytes : a.flatMap String.utf8EncodeChar = b.flatMap String.utf8EncodeChar := by
    have htoNat : Function.Injective UInt8.toNat := fun x y hxy => UInt8.toNat_inj.mp hxy
    have hmap (l : List Char) : utf8 l = (l.flatMap String.utf8EncodeChar).map UInt8.toNat := by
      rw [utf8, List.map_flatMap]
    rw [hmap, hmap] at h
    exact htoNat.list_map h
  have htext : String.ofList a = String.ofList b := by
    rw [← String.toByteArray_inj, String.toByteArray_ofList, String.toByteArray_ofList, List.utf8Encode,
      List.utf8Encode, hbytes]
  exact String.ofList_injective htext

theorem add_lt (a b : ℕ) : Sha256.add a b < 16 ^ 8 := Nat.mod_lt _ (by decide)

/-- The words of a digest have eight hexadecimal digits. -/
theorem digest_lt (message : List ℕ) : ∀ word ∈ Sha256.digest message, word < 16 ^ 8 := by
  have hstep (blocks : List (List ℕ)) (h : List ℕ) (hh : ∀ word ∈ h, word < 16 ^ 8) :
      ∀ word ∈ blocks.foldl Sha256.compress h, word < 16 ^ 8 := by
    induction blocks generalizing h with
    | nil => exact hh
    | cons block blocks ih =>
      refine ih _ fun word hword => ?_
      obtain ⟨n, hn⟩ := List.mem_iff_getElem?.mp hword
      obtain ⟨a, b, -, -, rfl⟩ := List.getElem?_zipWith_eq_some.mp hn
      exact add_lt a b
  exact hstep _ _ (by decide)

/-- Words written with a fixed number of digits are read off their text. -/
theorem hexTexts_injOn {words words' : List ℕ} (hw : ∀ word ∈ words, word < 16 ^ 8)
    (hw' : ∀ word ∈ words', word < 16 ^ 8) (h : words.flatMap (hexText 8) = words'.flatMap (hexText 8)) :
    words = words' := by
  induction words generalizing words' with
  | nil =>
    cases words' with
    | nil => rfl
    | cons word' words' =>
      have hlength := congrArg List.length h
      simp only [List.flatMap_nil, List.flatMap_cons, List.length_append, length_hexText, List.length_nil] at hlength
      omega
  | cons word words ih =>
    cases words' with
    | nil =>
      have hlength := congrArg List.length h
      simp only [List.flatMap_nil, List.flatMap_cons, List.length_append, length_hexText, List.length_nil] at hlength
      omega
    | cons word' words' =>
      simp only [List.flatMap_cons] at h
      obtain ⟨hhead, htail⟩ := List.append_inj h (by simp only [length_hexText])
      obtain ⟨hlt, hrest⟩ := List.forall_mem_cons.mp hw
      obtain ⟨hlt', hrest'⟩ := List.forall_mem_cons.mp hw'
      rw [hexText_injOn hlt hlt' hhead, ih hrest hrest' htail]

theorem sha256Hex_injOn {a b : List Char} (h : sha256Hex a = sha256Hex b) :
    Sha256.digest (utf8 a) = Sha256.digest (utf8 b) :=
  hexTexts_injOn (digest_lt _) (digest_lt _) (String.ofList_injective h)

end Bytes

section Fingerprints
variable {d d' : ReleaseDefinition} {mode text : String} {c c' : Computation}

theorem computation_selected {i : Invocation} (h : d.executionDefinition.mode? mode = some i) :
    selectedInvocation d (ExecutionDefinition.modeParameters mode) = .ok i :=
  selectedInvocation_ok.mpr ⟨mode, rfl, h⟩

/-- The fingerprint of a run is that of the computation its mode selects, and there is none without. -/
theorem fingerprint_ok : fingerprint d (ExecutionDefinition.modeParameters mode) = .ok text ↔
    ∃ c, d.computation? mode = some c ∧ sha256Hex c.text = text := by
  have hencodable (i : Invocation) : (i.computation d mode).payload.encodable = true :=
    Computation.payload_encodable _
  constructor
  · intro h
    obtain ⟨payload, hpayload, h⟩ := bind_eq_ok.mp h
    obtain ⟨i, hi, hpayload⟩ := bind_eq_ok.mp hpayload
    obtain ⟨mode', hmode', hfound⟩ := selectedInvocation_ok.mp hi
    obtain rfl : mode = mode' := Json.str.inj (Option.some.inj hmode')
    obtain rfl : (i.computation d mode).payload = payload := Except.ok.inj hpayload
    refine ⟨i.computation d mode, ?_, ?_⟩
    · rw [ReleaseDefinition.computation?, hfound, Option.map_some]
    · rw [hencodable, if_pos rfl] at h
      exact Except.ok.inj h
  · rintro ⟨c, hc, rfl⟩
    obtain ⟨i, hi, rfl⟩ := Option.map_eq_some_iff.mp hc
    have hpayload : fingerprintPayload d (ExecutionDefinition.modeParameters mode) =
        .ok (i.computation d mode).payload :=
      bind_eq_ok.mpr ⟨i, computation_selected hi, rfl⟩
    refine bind_eq_ok.mpr ⟨_, hpayload, ?_⟩
    rw [hencodable, if_pos rfl]
    rfl

/-- Two definitions with one fingerprint have one computation. -/
theorem computation_eq (hc : d.computation? mode = some c) (hc' : d'.computation? mode = some c')
    (h : fingerprint d (ExecutionDefinition.modeParameters mode) = .ok text)
    (h' : fingerprint d' (ExecutionDefinition.modeParameters mode) = .ok text)
    (hno : c.NoCollision c') : c = c' := by
  obtain ⟨a, ha, htext⟩ := fingerprint_ok.mp h
  obtain ⟨b, hb, htext'⟩ := fingerprint_ok.mp h'
  obtain rfl : c = a := Option.some.inj (hc.symm.trans ha)
  obtain rfl : c' = b := Option.some.inj (hc'.symm.trans hb)
  have hdigest := sha256Hex_injOn (htext.trans htext'.symm)
  exact Computation.text_injective (utf8_injective (hno hdigest))

theorem prepareMode_ok {execution : ExecutionDefinition} {mode mode' : String} :
    execution.prepareMode (ExecutionDefinition.modeParameters mode) = .ok mode' ↔
      mode = mode' ∧ (execution.mode? mode).isSome := by
  have hkeys : ¬ [("mode", Json.str mode)].map (·.1) ≠ ["mode"] := not_not.mpr rfl
  have hget : (Json.obj [("mode", Json.str mode)]).get? "mode" = some (.str mode) := rfl
  simp only [ExecutionDefinition.prepareMode, ExecutionDefinition.modeParameters, if_neg hkeys, hget]
  split
  · rename_i h
    exact ⟨fun he => ⟨Except.ok.inj he, h⟩, fun he => congrArg _ he.1⟩
  · rename_i h
    exact ⟨(fun he => by cases he), fun he => absurd he.2 h⟩

/-- Prepared parameters are the mode alone. -/
theorem prepareMode_parameters {execution : ExecutionDefinition} {parameters : Json} {mode : String}
    (h : execution.prepareMode parameters = .ok mode) : parameters = ExecutionDefinition.modeParameters mode := by
  unfold ExecutionDefinition.prepareMode at h
  split at h
  · rename_i members
    split at h
    · contradiction
    · rename_i hkeys
      split at h
      · rename_i mode' hmode
        split at h
        · obtain rfl := Except.ok.inj h
          obtain ⟨⟨key, value⟩, rfl⟩ : ∃ e, members = [e] := by
            have hlength := congrArg List.length (not_not.mp hkeys)
            exact List.length_eq_one_iff.mp (by simpa using hlength)
          obtain rfl : key = "mode" := (List.cons.inj (not_not.mp hkeys)).1
          obtain rfl : value = .str mode' := Option.some.inj hmode
          rfl
        · contradiction
      · contradiction
  · contradiction

/-- A Job is rendered from the computation. -/
theorem modelJobValues_ok {runId : UUID} {values : Json} :
    modelJobValues d (ExecutionDefinition.modeParameters mode) runId = .ok values ↔
      ∃ c, d.computation? mode = some c ∧ values = c.jobValues runId (sha256Hex c.text) := by
  constructor
  · intro h
    obtain ⟨mode', hmode, h⟩ := bind_eq_ok.mp h
    obtain ⟨rfl, -⟩ := prepareMode_ok.mp hmode
    obtain ⟨i, hi, h⟩ := bind_eq_ok.mp h
    obtain ⟨text, htext, h⟩ := bind_eq_ok.mp h
    have hi : selectedInvocation d (ExecutionDefinition.modeParameters mode) = .ok i := hi
    obtain ⟨mode', hmode', hfound⟩ := selectedInvocation_ok.mp hi
    obtain rfl : mode = mode' := Json.str.inj (Option.some.inj hmode')
    obtain ⟨c, hc, rfl⟩ := fingerprint_ok.mp htext
    obtain rfl := Except.ok.inj h
    refine ⟨c, hc, ?_⟩
    obtain rfl : i.computation d mode = c := by
      simpa only [ReleaseDefinition.computation?, hfound, Option.map_some, Option.some.injEq] using hc
    rfl
  · rintro ⟨c, hc, rfl⟩
    have htext := fingerprint_ok.mpr ⟨c, hc, rfl⟩
    obtain ⟨i, hi, rfl⟩ := Option.map_eq_some_iff.mp hc
    have hmode : d.executionDefinition.prepareMode (ExecutionDefinition.modeParameters mode) = .ok mode :=
      prepareMode_ok.mpr ⟨rfl, by rw [hi]; rfl⟩
    have hresolve : d.executionDefinition.resolve (ExecutionDefinition.modeParameters mode) = .ok i :=
      computation_selected hi
    exact bind_eq_ok.mpr ⟨mode, hmode, bind_eq_ok.mpr ⟨i, hresolve, bind_eq_ok.mpr ⟨_, htext, rfl⟩⟩⟩

end Fingerprints
end Mic3
