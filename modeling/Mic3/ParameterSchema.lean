import Mic3.Computation
import Mic3.JsonValues
import Mic3.Platform

/-! The parameters a release publishes as a JSON Schema beside those a submission accepts. -/
namespace Mic3
namespace Json

/-- The entries of an object, and none of anything else. -/
def entries : Json → List (String × Json)
  | .obj fields => fields
  | _ => []

/-- Whether a value has one of JSON Schema's types; a number without a fraction is an integer. -/
def hasType (type : String) : Json → Bool
  | .null => type = "null"
  | .bool _ => type = "boolean"
  | .str _ => type = "string"
  | .arr _ => type = "array"
  | .obj _ => type = "object"
  | v => type = "number" || type = "integer" && (numberValue v).any Rat.isInt

/-- A keyword that no schema stands below. Keywords that the published documents do not have say nothing here. -/
def assertion (name : String) (argument v : Json) : Bool :=
  match argument with
  | .str type => name ≠ "type" || v.hasType type
  | .arr items =>
    if name = "enum" then items.any fun item => v.Same item
    else if name = "required" then !v.hasType "object" || items.all fun item => v.entries.any fun e => .str e.1 = item
    else true
  | _ => true

mutual
/-- Whether a value is valid under a schema. -/
def validates : Json → Json → Bool
  | .bool b, _ => b
  | .obj keywords, v => keywordsValidate ((Json.obj keywords).get? "properties") keywords v
  | _, _ => false

/-- Every keyword is satisfied. The entries that `properties` does not name are those of `additionalProperties`. -/
def keywordsValidate (properties : Option Json) : List (String × Json) → Json → Bool
  | [], _ => true
  | (name, argument) :: keywords, v =>
    (if name = "properties" then propertiesValidate argument v
      else if name = "additionalProperties" then v.entries.all fun e =>
        (properties.bind fun named => named.get? e.1).isSome || validates argument e.2
      else assertion name argument v) && keywordsValidate properties keywords v

def propertiesValidate : Json → Json → Bool
  | .obj properties, v => fieldsValidate properties v
  | _, _ => true

/-- A property that is absent is no error. -/
def fieldsValidate : List (String × Json) → Json → Bool
  | [], _ => true
  | (name, schema) :: properties, v => (v.get? name).all (validates schema) && fieldsValidate properties v
end

end Json

namespace ExecutionDefinition

/-- The schema of the one parameter. -/
def modeMetadata (d : ExecutionDefinition) : Json :=
  .obj [("type", .str "string"), ("enum", .arr ((sorted (d.modes.map (·.1))).map .str))]

def parameterMetadata (d : ExecutionDefinition) : Json :=
  .obj [("type", .str "object"), ("additionalProperties", .bool false), ("required", .arr [.str "mode"]),
    ("properties", .obj [("mode", d.modeMetadata)])]

section Agreement
variable {d : ExecutionDefinition} {v r : Json} {mode : String} {fields : List (String × Json)}

theorem mode?_isSome : (d.mode? mode).isSome = true ↔ mode ∈ d.modes.map (·.1) := by
  rw [mode?, List.lookup_isSome_iff, List.mem_map]
  exact exists_congr fun e => and_congr_right fun _ => beq_iff_eq.trans eq_comm

theorem modeMetadata_validates : d.modeMetadata.validates v = true ↔
    ∃ mode, v = .str mode ∧ (d.mode? mode).isSome = true := by
  have hmem (mode : String) : mode ∈ sorted (d.modes.map (·.1)) ↔ (d.mode? mode).isSome = true :=
    (List.mem_insertionSort _).trans mode?_isSome.symm
  have htype : v.hasType "string" = true ↔ ∃ text, v = .str text := by
    cases v <;> simp [Json.hasType]
  have hkeywords : d.modeMetadata.validates v =
      (v.hasType "string" && ((sorted (d.modes.map (·.1))).map Json.str).any fun item => v.Same item) := by
    simp [modeMetadata, Json.validates, Json.keywordsValidate, Json.assertion]
  rw [hkeywords, Bool.and_eq_true, htype, List.any_eq_true]
  constructor
  · rintro ⟨⟨text, rfl⟩, item, hitem, hsame⟩
    obtain ⟨mode, hmode, rfl⟩ := List.mem_map.mp hitem
    obtain rfl := Json.str.inj (Json.Same.str_left (of_decide_eq_true hsame))
    exact ⟨_, rfl, (hmem _).mp hmode⟩
  · rintro ⟨mode, rfl, hmode⟩
    exact ⟨⟨mode, rfl⟩, .str mode, List.mem_map_of_mem ((hmem mode).mpr hmode), decide_eq_true rfl⟩

/-- The schema asks for an object with the mode, with nothing else, and with a mode of the enumeration. -/
theorem parameterMetadata_validates : d.parameterMetadata.validates v = true ↔
    ∃ fields, v = .obj fields ∧ (∀ e ∈ fields, e.1 = "mode") ∧ (∃ e ∈ fields, e.1 = "mode") ∧
      ∀ value ∈ fields.lookup "mode", d.modeMetadata.validates value = true := by
  have hnamed (key : String) :
      ((Json.obj [("mode", d.modeMetadata)]).get? key).isSome = decide (key = "mode") := by
    rw [Json.get?, List.lookup_cons]
    by_cases hkey : key = "mode"
    · rw [beq_iff_eq.mpr hkey, decide_eq_true hkey]
      rfl
    · rw [beq_eq_false_iff_ne.mpr hkey, decide_eq_false hkey]
      rfl
  have hkeywords : d.parameterMetadata.validates v = (v.hasType "object" &&
      ((v.entries.all fun e => e.1 = "mode") && ((!v.hasType "object" || v.entries.any fun e => e.1 = "mode") &&
        (v.get? "mode").all d.modeMetadata.validates))) := by
    have hproperties : (Json.obj [("type", .str "object"), ("additionalProperties", .bool false),
        ("required", .arr [.str "mode"]), ("properties", .obj [("mode", d.modeMetadata)])]).get? "properties" =
          some (.obj [("mode", d.modeMetadata)]) := rfl
    rw [parameterMetadata, Json.validates, hproperties]
    simp [Json.keywordsValidate, Json.assertion, Json.propertiesValidate, Json.fieldsValidate, Json.validates, hnamed]
  rw [hkeywords]
  cases v with
  | obj fields =>
    have hall : Option.all d.modeMetadata.validates (fields.lookup "mode") = true ↔
        ∀ value ∈ fields.lookup "mode", d.modeMetadata.validates value = true := by
      cases fields.lookup "mode" <;> simp
    simp [Json.hasType, Json.entries, Json.get?, hall]
  | _ => simp [Json.hasType]

/-- What the code accepts: the parameters that select a mode, as they are. -/
theorem prepare_eq_ok : d.prepare v = .ok r ↔
    ∃ mode, v = modeParameters mode ∧ r = v ∧ (d.mode? mode).isSome = true := by
  constructor
  · intro h
    obtain ⟨mode, hmode, hr⟩ := bind_eq_ok.mp h
    obtain rfl := prepareMode_parameters hmode
    obtain ⟨-, hsome⟩ := prepareMode_ok.mp hmode
    exact ⟨mode, rfl, (Except.ok.inj hr).symm, hsome⟩
  · rintro ⟨mode, rfl, rfl, hsome⟩
    exact bind_eq_ok.mpr ⟨mode, prepareMode_ok.mpr ⟨rfl, hsome⟩, rfl⟩

/-- Both accept the same dicts. -/
theorem validates_iff_modeParameters (hv : v.Proper) : d.parameterMetadata.validates v = true ↔
    ∃ mode, v = modeParameters mode ∧ (d.mode? mode).isSome = true := by
  rw [parameterMetadata_validates]
  constructor
  · rintro ⟨fields, rfl, hkeys, ⟨e, he, -⟩, hvalue⟩
    have hnodup : (fields.map Prod.fst).Nodup := hv.1
    have hsame : fields.map Prod.fst = List.replicate fields.length "mode" :=
      List.eq_replicate_iff.mpr ⟨List.length_map _, List.forall_mem_map.mpr hkeys⟩
    have hlength : fields.length ≤ 1 := List.nodup_replicate.mp (hsame ▸ hnodup)
    obtain ⟨⟨key, value⟩, rfl⟩ : ∃ e, fields = [e] :=
      List.length_eq_one_iff.mp (le_antisymm hlength (List.length_pos_of_mem he))
    obtain rfl : key = "mode" := hkeys _ (List.mem_singleton_self _)
    obtain ⟨mode, rfl, hsome⟩ := modeMetadata_validates.mp (hvalue value rfl)
    exact ⟨mode, rfl, hsome⟩
  · rintro ⟨mode, rfl, hsome⟩
    refine ⟨_, rfl, fun e he => ?_, ⟨_, List.mem_singleton_self _, rfl⟩, fun value hvalue => ?_⟩
    · rw [List.mem_singleton.mp he]
    · obtain rfl : Json.str mode = value := Option.some.inj hvalue
      exact modeMetadata_validates.mpr ⟨mode, rfl, hsome⟩

theorem prepareMode_error {e : Raised} (h : d.prepareMode v = .error e) : ∃ message, e = .modelError message := by
  unfold prepareMode at h
  split at h
  · split at h
    · exact ⟨_, (Except.error.inj h).symm⟩
    · split at h
      · split at h
        · contradiction
        · exact ⟨_, (Except.error.inj h).symm⟩
      · exact ⟨_, (Except.error.inj h).symm⟩
  · exact ⟨_, (Except.error.inj h).symm⟩

theorem prepare_error {e : Raised} (h : d.prepare v = .error e) : ∃ message, e = .modelError message := by
  cases hmode : d.prepareMode v with
  | ok mode =>
    rw [prepare, hmode] at h
    contradiction
  | error e' =>
    rw [prepare, hmode] at h
    obtain rfl := Except.error.inj h
    exact prepareMode_error hmode

/-- A prepared mode resolves to its invocation. -/
theorem resolve_modeParameters {i : Invocation} (h : d.mode? mode = some i) : d.resolve (modeParameters mode) = .ok i := by
  have hmode : d.prepareMode (modeParameters mode) = .ok mode := prepareMode_ok.mpr ⟨rfl, h ▸ rfl⟩
  refine bind_eq_ok.mpr ⟨mode, hmode, ?_⟩
  rw [h]
  rfl

end Agreement
end ExecutionDefinition
namespace SubmitRun
variable {x : External} {p : Pid} {w w' : World} {call : SubmitRun} {release : ModelRelease} {e : Raised} {l' : Proc}

theorem prepare_error {t : Tables} {id : UUID} (hr : getRelease t call.releaseId = .ok release)
    (h : release.definition.executionDefinition.prepare call.parameters = .error e) :
    call.prepare t id = .error e := by
  rw [SubmitRun.prepare, hr]
  simp only [bind, Except.bind, h]

/-- A call that does not prepare its parameters ends at its first statement, and leaves nothing behind. -/
theorem refused {a : Action} (h : ∀ id, call.prepare w.tables id = .error e)
    (ha : platformAct x p a w (.submit call .getRelease) = some (w', l')) :
    w'.tables = w.tables ∧ w'.history = w.history ∧ (l' = .idle ∨ l' = .unwinding) := by
  have hstep (i : Input) : call.step w i .getRelease = (.rollback, .raised e) := by
    rw [step, h i.uuid]
    rfl
  have hnext (i : Input) : (Proc.submit call .getRelease).next x p w i = (.rollback, .idle) := by
    rw [Proc.next, hstep]
    rfl
  cases a with
  | start task => contradiction
  | run i =>
    rw [platformAct, hnext] at ha
    obtain ⟨rfl, rfl⟩ := Prod.mk.inj (Option.some.inj ha)
    exact ⟨rfl, rfl, .inl rfl⟩
  | lost i =>
    rw [platformAct, hnext] at ha
    obtain ⟨rfl, rfl⟩ := Prod.mk.inj (Option.some.inj ha)
    exact ⟨rfl, rfl, .inr rfl⟩
  | fail =>
    obtain ⟨rfl, rfl⟩ := Prod.mk.inj (Option.some.inj ha)
    exact ⟨rfl, rfl, .inr rfl⟩
  | crash =>
    obtain ⟨rfl, rfl⟩ := Prod.mk.inj (Option.some.inj ha)
    exact ⟨rfl, rfl, .inl rfl⟩

end SubmitRun

/-- For every definition and every JSON value: the published schema and the submission agree on it. An accepted value
is taken as it is and resolves to the invocation of the mode it names. A refused one is a `ModelError`, with which a
call ends at its first statement, whatever happens to that statement. -/
theorem published_parameters_agree (d : ExecutionDefinition) {v : Json} (hv : v.Proper) :
    (d.parameterMetadata.validates v = true ↔ ∃ r, d.prepare v = .ok r) ∧
    (∀ r, d.prepare v = .ok r → r = v ∧ d.prepare r = .ok r ∧ ∃ mode invocation,
      v.get? "mode" = some (.str mode) ∧ d.mode? mode = some invocation ∧ d.resolve v = .ok invocation) ∧
    ∀ e, d.prepare v = .error e → (∃ message, e = .modelError message) ∧
      ∀ (x : External) (p : Pid) (w : World) (call : SubmitRun) (release : ModelRelease), call.parameters = v →
        getRelease w.tables call.releaseId = .ok release → release.definition.executionDefinition = d →
        (∀ i, call.step w i .getRelease = (.rollback, .raised e)) ∧
        ∀ a w' l', platformAct x p a w (.submit call .getRelease) = some (w', l') →
          w'.tables = w.tables ∧ w'.history = w.history ∧ (l' = .idle ∨ l' = .unwinding) := by
  refine ⟨?_, fun r hr => ?_, fun e he => ⟨d.prepare_error he, ?_⟩⟩
  · rw [d.validates_iff_modeParameters hv]
    constructor
    · rintro ⟨mode, hmode, hsome⟩
      exact ⟨v, d.prepare_eq_ok.mpr ⟨mode, hmode, rfl, hsome⟩⟩
    · rintro ⟨r, hr⟩
      obtain ⟨mode, hmode, -, hsome⟩ := d.prepare_eq_ok.mp hr
      exact ⟨mode, hmode, hsome⟩
  · obtain ⟨mode, rfl, rfl, hsome⟩ := d.prepare_eq_ok.mp hr
    obtain ⟨invocation, hfound⟩ := Option.isSome_iff_exists.mp hsome
    exact ⟨rfl, hr, mode, invocation, rfl, hfound, d.resolve_modeParameters hfound⟩
  · rintro x p w call release rfl hrelease rfl
    have hprepare (id : UUID) : call.prepare w.tables id = .error e := SubmitRun.prepare_error hrelease he
    refine ⟨fun i => ?_, fun a w' l' ha => SubmitRun.refused hprepare ha⟩
    rw [SubmitRun.step, hprepare i.uuid]
    rfl

theorem published_parameters_agree_demo :
    Demo.release.executionDefinition.parameterMetadata.validates (.obj [("mode", .str "fast")]) = true ∧
    ¬ Demo.release.executionDefinition.parameterMetadata.validates (.obj [("mode", .str "slow")]) = true := by
  have hproper (mode : String) : (Json.obj [("mode", .str mode)]).Proper := by
    simp [Json.Proper, Json.ProperFields]
  refine ⟨(published_parameters_agree _ (hproper "fast")).1.mpr ⟨_, rfl⟩, fun h => ?_⟩
  obtain ⟨r, hr⟩ := (published_parameters_agree _ (hproper "slow")).1.mp h
  cases hr

end Mic3
