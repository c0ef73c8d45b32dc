import Mic3.Delivery
import Mic3.JsonPatch

/-! `ownership_patch`: a bootstrap gives up the delivery annotations it owns, and nothing else of a deployment changes. -/
namespace Mic3

/-- The pointer of an annotation in the ownership of an entry of `managedFields`. -/
def ownedPath (index : ℕ) (key : String) : String :=
  "/metadata/managedFields/" ++ toString index ++ "/fieldsV1/f:metadata/f:annotations/" ++
    String.ofList (Json.escapeToken ("f:" ++ key).toList)

def removeOperation (index : ℕ) (key : String) : Json :=
  .obj [("op", .str "remove"), ("path", .str (ownedPath index key))]

def testOperation (resourceVersion : Json) : Json :=
  .obj [("op", .str "test"), ("path", .str "/metadata/resourceVersion"), ("value", resourceVersion)]

/-- `manager.get('fieldsV1', {}).get('f:metadata', {}).get('f:annotations', {})`. -/
def ownedFields (manager : Json) : Except ScriptError Json := do
  let fieldsV1 ← manager.getD "fieldsV1" (.obj [])
  let metadata ← fieldsV1.getD "f:metadata" (.obj [])
  metadata.getD "f:annotations" (.obj [])

/-- `[key for key in annotations if 'f:'+key in fields]`. -/
def ownedKeys (fields : Json) : List String → Except ScriptError (List String)
  | [] => .ok []
  | key :: keys => do
    let owns ← Json.isIn ("f:" ++ key) fields
    let owned ← ownedKeys fields keys
    return if owns then key :: owned else owned

/-- `manager['manager'] == 'helm' and manager['operation'] == 'Apply'`. -/
def isHelmApply (manager : Json) : Except ScriptError Bool := do
  if (← manager.item "manager") = .str "helm" then return (← manager.item "operation") = .str "Apply"
  else return false

/-- The check of a manager that owns some of the keys and is not Helm's Apply. -/
def checkManager (manager : Json) : Except ScriptError Unit := do
  let operation ← manager.item "operation"
  let name ← manager.item "manager"
  refuse (operation ≠ .str "Update" || name ∉ ["kubectl-annotate", "mic3-bootstrap", "helm"].map Json.str)
    "Unexpected delivery annotation owner; inspect before retrying"

/-- The operations for one entry. -/
def managerRemovals (keys : List String) (index : ℕ) (manager : Json) : Except ScriptError (List Json) := do
  let fields ← ownedFields manager
  let owned ← ownedKeys fields keys
  if owned = [] then return []
  else if ← isHelmApply manager then return []
  else do
    checkManager manager
    return owned.map (removeOperation index)

/-- The loop over `managedFields`. -/
def removals (keys : List String) : ℕ → List Json → Except ScriptError (List Json)
  | _, [] => .ok []
  | index, manager :: managers => do
    let operations ← managerRemovals keys index manager
    return operations ++ (← removals keys (index + 1) managers)

def ownershipPatch (doc : Json) (role : String) (annotations : List (String × Json)) :
    Except ScriptError (List Json) := do
  let current ← annotationsOf doc
  let images ← liveImages doc
  refuse (← annotations.anyM fun e => do return !Json.equal (← current.getD e.1 .null) e.2)
    "Deployment changed during bootstrap; inspect before retrying"
  let image ← (Json.obj annotations).item ( annotation ++ "image")
  refuse (!Json.equal (imageOf images role) image) "Deployment changed during bootstrap; inspect before retrying"
  let metadata ← doc.item "metadata"
  let resourceVersion ← metadata.item "resourceVersion"
  let managers ← (← metadata.getD "managedFields" (.arr [])).iterate
  let operations ← removals (annotations.map Prod.fst) 0 managers
  return testOperation resourceVersion :: operations

namespace Json

/-- The value behind a path of keys. -/
def getAt : List String → Json → Option Json
  | [], v => some v
  | key :: path, v => (v.get? key).bind (getAt path)

/-- The value behind a path of keys is changed, where there is one. -/
def mapAt : List String → (Json → Json) → Json → Json
  | [], f, v => f v
  | key :: path, f, .obj fields => .obj (fields.map fun e => if e.1 = key then (e.1, mapAt path f e.2) else e)
  | _ :: _, _, v => v

/-- An object without some keys. -/
def dropKeys (keys : List String) : Json → Json
  | .obj fields => .obj (fields.filter fun e => e.1 ∉ keys)
  | v => v

end Json

/-- Where `managedFields` stands, and where the annotations stand in an entry of it. -/
def managersPath : List String := ["metadata", "managedFields"]
def annotationsPath : List String := ["fieldsV1", "f:metadata", "f:annotations"]

/-- What a repair is for: the keys are gone from the ownership of an entry, unless it is Helm's Apply. -/
def releaseManager (keys : List String) (manager : Json) : Json :=
  if manager.get? "manager" = some (.str "helm") ∧ manager.get? "operation" = some (.str "Apply") then manager
  else Json.mapAt annotationsPath (Json.dropKeys (keys.map fun key => "f:" ++ key)) manager

def releaseManagers (keys : List String) : Json → Json
  | .arr managers => .arr (managers.map (releaseManager keys))
  | v => v

/-- The deployment after the repair. -/
def released (keys : List String) (doc : Json) : Json := Json.mapAt managersPath (releaseManagers keys) doc

/-- As the API server has it: the annotations that an entry owns are an object. -/
def OwnsObjects (doc : Json) : Prop :=
  ∀ managers, Json.getAt managersPath doc = some (.arr managers) → ∀ manager ∈ managers,
    ∀ v, Json.getAt annotationsPath manager = some v → ∃ fields, v = .obj fields

namespace Json
variable {f : Json → Option Json} {g : Json → Json} {v x y : Json} {fields : List (String × Json)} {path keys : List String}
  {key : String}

section Paths

/-- The entries of an object, one key's changed. -/
def mapKey (key : String) (g : Json → Json) (fields : List (String × Json)) : List (String × Json) :=
  fields.map fun e => if e.1 = key then (e.1, g e.2) else e

theorem lookup_mapKey {k : String} :
    (mapKey key g fields).lookup k = if k = key then (fields.lookup k).map g else fields.lookup k := by
  induction fields with
  | nil => simp [mapKey]
  | cons e fields ih =>
    have hcons : mapKey key g (e :: fields) = (if e.1 = key then (e.1, g e.2) else e) :: mapKey key g fields := rfl
    have hfirst : (if e.1 = key then (e.1, g e.2) else e).1 = e.1 := by split <;> rfl
    rw [hcons, List.lookup_cons, List.lookup_cons, hfirst, ih]
    by_cases hk : k = e.1
    · subst hk
      rw [beq_self_eq_true]
      by_cases he : e.1 = key <;> simp [he]
    · rw [beq_eq_false_iff_ne.mpr hk]

theorem mapKey_notMem (h : key ∉ fields.map Prod.fst) : mapKey key g fields = fields := by
  refine (List.map_congr_left fun e he => if_neg fun hkey => h ?_).trans (List.map_id fields)
  exact hkey ▸ List.mem_map_of_mem he

/-- With distinct keys an entry is changed by what is found under its key. -/
theorem mapKey_congr {g' : Json → Json} (hn : (fields.map Prod.fst).Nodup) (h : ∀ c, fields.lookup key = some c → g c = g' c) :
    mapKey key g fields = mapKey key g' fields := by
  refine List.map_congr_left fun e he => ?_
  by_cases hkey : e.1 = key
  · have hfound : fields.lookup key = some e.2 := (lookup_iff_mem hn).mpr (hkey ▸ he)
    rw [if_pos hkey, if_pos hkey, h e.2 hfound]
  · rw [if_neg hkey, if_neg hkey]

theorem updateField_mapKey {F : Json → Option Json} {c : Json} (hn : (fields.map Prod.fst).Nodup)
    (hc : fields.lookup key = some c) :
    updateField key F (mapKey key g fields) = (F (g c)).map fun z => mapKey key (fun _ => z) fields := by
  induction fields with
  | nil => contradiction
  | cons e fields ih =>
    obtain ⟨hfresh, hrest⟩ := List.nodup_cons.mp hn
    have hcons (g : Json → Json) :
        mapKey key g (e :: fields) = (if e.1 = key then (e.1, g e.2) else e) :: mapKey key g fields := rfl
    rw [List.lookup_cons] at hc
    by_cases he : e.1 = key
    · have hnone : key ∉ fields.map Prod.fst := he ▸ hfresh
      rw [he, beq_self_eq_true] at hc
      obtain rfl := Option.some.inj hc
      simp only [hcons, if_pos he, mapKey_notMem hnone, updateField]
    · rw [beq_eq_false_iff_ne.mpr (Ne.symm he)] at hc
      simp only [hcons, if_neg he, updateField, ih hrest hc, Option.map_map]
      rfl

/-- An update at a path puts its result where the value was. -/
theorem updateAt_mapAt {c : Json} (hv : v.Proper) (hc : getAt path v = some c) :
    updateAt path f (mapAt path (fun _ => x) v) = (f x).map fun z => mapAt path (fun _ => z) v := by
  induction path generalizing v with
  | nil => exact (congrFun Option.map_id _).symm
  | cons key path ih =>
    obtain ⟨d, hd, hrest⟩ := Option.bind_eq_some_iff.mp hc
    cases v with
    | obj fields =>
      have hn : (fields.map Prod.fst).Nodup := hv.1
      have hproper : d.Proper := properFields_iff.mp hv.2 (key, d) ((lookup_iff_mem hn).mp hd)
      have hplace (z : Json) : mapKey key (fun _ => mapAt path (fun _ => z) d) fields =
          mapKey key (mapAt path fun _ => z) fields :=
        mapKey_congr hn fun c hc => by rw [Option.some.inj (hd.symm.trans hc)]
      calc updateChild key (updateAt path f) (.obj (mapKey key (mapAt path fun _ => x) fields))
        _ = (updateField key (updateAt path f) (mapKey key (mapAt path fun _ => x) fields)).map .obj := rfl
        _ = ((f x).map fun z => mapKey key (fun _ => mapAt path (fun _ => z) d) fields).map .obj := by
          rw [updateField_mapKey hn hd, ih hproper hrest]
          cases f x <;> rfl
        _ = (f x).map fun z => .obj (mapKey key (mapAt path fun _ => z) fields) := by
          rw [Option.map_map]
          exact congrArg (Option.map · (f x)) (funext fun z => congrArg Json.obj (hplace z))
    | _ => contradiction

/-- What is behind a path decides what a change does. -/
theorem mapAt_congr {g' : Json → Json} (hv : v.Proper) (h : ∀ c, getAt path v = some c → g c = g' c) :
    mapAt path g v = mapAt path g' v := by
  induction path generalizing v with
  | nil => exact h v rfl
  | cons key path ih =>
    cases v with
    | obj fields =>
      have hn : (fields.map Prod.fst).Nodup := hv.1
      refine congrArg Json.obj (mapKey_congr hn fun d hd => ?_)
      have hproper : d.Proper := properFields_iff.mp hv.2 (key, d) ((lookup_iff_mem hn).mp hd)
      exact ih hproper fun c hc => h c (Option.bind_eq_some_iff.mpr ⟨d, hd, hc⟩)
    | _ => rfl

theorem mapAt_id : mapAt path (fun v => v) v = v := by
  induction path generalizing v with
  | nil => rfl
  | cons key path ih =>
    cases v with
    | obj fields =>
      have hsame : mapKey key (mapAt path fun v => v) fields = fields := by
        refine (List.map_congr_left fun e _ => ?_).trans (List.map_id fields)
        rw [ih]
        exact ite_self e
      exact congrArg Json.obj hsame
    | _ => rfl

end Paths

section Operations
variable {index : ℕ}

theorem intercalate_seven (a b c d e f g : List Char) : '/' :: ['/'].intercalate [a, b, c, d, e, f, g] =
    ('/' :: a ++ '/' :: b ++ ['/']) ++ (c ++ (('/' :: d ++ '/' :: e ++ '/' :: f ++ ['/']) ++ g)) := by
  simp [List.intercalate, List.intersperse]

theorem toList_four (a b c : String) (d : List Char) :
    (a ++ b ++ c ++ String.ofList d).toList = a.toList ++ (b.toList ++ (c.toList ++ d)) := by
  simp only [String.toList_append, String.toList_ofList, List.append_assoc]

theorem pointer_ownedPath : pointer (ownedPath index key) =
    some (managersPath ++ toString index :: (annotationsPath ++ ["f:" ++ key])) := by
  refine pointer_tokens ?_ (List.cons_ne_nil _ _)
  have hhead : "/metadata/managedFields/".toList =
      '/' :: escapeToken "metadata".toList ++ '/' :: escapeToken "managedFields".toList ++ ['/'] := by decide +kernel
  have hmiddle : "/fieldsV1/f:metadata/f:annotations/".toList =
      '/' :: escapeToken "fieldsV1".toList ++ '/' :: escapeToken "f:metadata".toList ++
        '/' :: escapeToken "f:annotations".toList ++ ['/'] := by decide +kernel
  have htext : (ownedPath index key).toList = "/metadata/managedFields/".toList ++ ((toString index).toList ++
      ("/fieldsV1/f:metadata/f:annotations/".toList ++ escapeToken ("f:" ++ key).toList)) := toList_four _ _ _ _
  have htokens : (managersPath ++ toString index :: (annotationsPath ++ ["f:" ++ key])).map
      (fun token => escapeToken token.toList) = [escapeToken "metadata".toList, escapeToken "managedFields".toList,
        escapeToken (toString index).toList, escapeToken "fieldsV1".toList, escapeToken "f:metadata".toList,
        escapeToken "f:annotations".toList, escapeToken ("f:" ++ key).toList] := rfl
  rw [htokens, intercalate_seven, escapeToken_toString, htext, hhead, hmiddle]

theorem applyOperation_remove : applyOperation v (removeOperation index key) =
    removeAt (managersPath ++ toString index :: annotationsPath ++ ["f:" ++ key]) v := by
  have hop : (removeOperation index key).get? "op" = some (.str "remove") := rfl
  have hpath : (removeOperation index key).get? "path" = some (.str (ownedPath index key)) := rfl
  simp only [applyOperation, hop, hpath, pointer_ownedPath, Option.bind_some, List.append_assoc, List.cons_append]

/-- The operations for one manager are one update of its annotations. -/
theorem applyRemovals {owned : List String} (hne : owned ≠ []) :
    applyPatch (owned.map (removeOperation index)) v =
      updateAt managersPath (updateChild (toString index) (updateAt annotationsPath fun v =>
        (owned.map fun key => "f:" ++ key).foldlM (fun v token => removeChild token v) v)) v := by
  have hpath : managersPath ++ toString index :: annotationsPath =
      managersPath ++ ([toString index] ++ annotationsPath) := rfl
  calc applyPatch (owned.map (removeOperation index)) v
    _ = owned.foldlM (fun v key => applyOperation v (removeOperation index key)) v := List.foldlM_map
    _ = (owned.map fun key => "f:" ++ key).foldlM
        (fun v token => removeAt (managersPath ++ toString index :: annotationsPath ++ [token]) v) v := by
      simp only [List.foldlM_map, applyOperation_remove]
    _ = updateAt (managersPath ++ ([toString index] ++ annotationsPath)) (fun v =>
        (owned.map fun key => "f:" ++ key).foldlM (fun v token => removeChild token v) v) v := by
      rw [removals_at (mt List.map_eq_nil_iff.mp hne), hpath]
    _ = _ := by
      rw [updateAt_append, updateAt_append]
      rfl

end Operations

section Managers
variable {managers before : List Json} {manager : Json} {operations : List Json} {index : ℕ} {owned : List String}

theorem ownedKeys_obj : ownedKeys (.obj fields) keys =
    .ok (keys.filter fun key => ("f:" ++ key) ∈ fields.map Prod.fst) := by
  induction keys with
  | nil => rfl
  | cons key keys ih =>
    have howns : isIn ("f:" ++ key) (.obj fields) = .ok (decide (("f:" ++ key) ∈ fields.map Prod.fst)) := by
      simp only [isIn, List.mem_map]
      congr 1
      rw [Bool.eq_iff_iff, List.any_eq_true, decide_eq_true_eq]
      simp
    rw [ownedKeys, howns, ih, List.filter_cons]
    rfl

/-- What the ownership of an entry is: what stands at the path, or nothing. -/
theorem ownedFields_eq_ok (h : ownedFields manager = .ok v) :
    getAt annotationsPath manager = some v ∨ getAt annotationsPath manager = none ∧ v = .obj [] := by
  obtain ⟨fieldsV1, hfieldsV1, h⟩ := bind_eq_ok.mp h
  obtain ⟨metadata, hmetadata, h⟩ := bind_eq_ok.mp h
  obtain ⟨fs, rfl, rfl⟩ := getD_eq_ok hfieldsV1
  obtain ⟨gs, hgs, rfl⟩ := getD_eq_ok hmetadata
  obtain ⟨hs, hhs, rfl⟩ := getD_eq_ok h
  have hpath : getAt annotationsPath (.obj fs) = (fs.lookup "fieldsV1").bind (getAt ["f:metadata", "f:annotations"]) := rfl
  rw [hpath]
  cases hfs : fs.lookup "fieldsV1" with
  | none =>
    obtain rfl : [] = gs := Json.obj.inj ((congrArg (Option.getD · _) hfs).symm.trans hgs)
    obtain rfl : [] = hs := Json.obj.inj hhs
    exact .inr ⟨rfl, rfl⟩
  | some x =>
    obtain rfl : x = .obj gs := (congrArg (Option.getD · _) hfs).symm.trans hgs
    have hrest : getAt ["f:metadata", "f:annotations"] (.obj gs) =
        (gs.lookup "f:metadata").bind (getAt ["f:annotations"]) := rfl
    rw [Option.bind_some, hrest]
    cases hgs' : gs.lookup "f:metadata" with
    | none =>
      obtain rfl : [] = hs := Json.obj.inj ((congrArg (Option.getD · _) hgs').symm.trans hhs)
      exact .inr ⟨rfl, rfl⟩
    | some y =>
      obtain rfl : y = .obj hs := (congrArg (Option.getD · _) hgs').symm.trans hhs
      have hlast : getAt ["f:annotations"] (.obj hs) = (hs.lookup "f:annotations").bind (getAt []) := rfl
      rw [Option.bind_some, hlast]
      cases hs.lookup "f:annotations" with
      | none => exact .inr ⟨rfl, rfl⟩
      | some z => exact .inl rfl

/-- The default of a `get` is not changed, so what is got is changed where it stands. -/
theorem getD_mapAt (hg : mapAt path g x = x) (h : v.getD key x = .ok y) :
    (mapAt (key :: path) g v).getD key x = .ok (mapAt path g y) := by
  obtain ⟨fs, rfl, rfl⟩ := getD_eq_ok h
  have hfound : (mapKey key (mapAt path g) fs).lookup key = (fs.lookup key).map (mapAt path g) := by
    rw [lookup_mapKey, if_pos rfl]
  calc (Json.obj (mapKey key (mapAt path g) fs)).getD key x
    _ = .ok (((fs.lookup key).map (mapAt path g)).getD x) := by rw [getD, hfound]
    _ = .ok (mapAt path g ((fs.lookup key).getD x)) := by
      cases fs.lookup key with
      | none => exact congrArg Except.ok hg.symm
      | some _ => rfl

theorem ownedFields_mapAt (h : ownedFields manager = .ok v) :
    ownedFields (mapAt annotationsPath (dropKeys keys) manager) = .ok (dropKeys keys v) := by
  obtain ⟨fieldsV1, hfieldsV1, h⟩ := bind_eq_ok.mp h
  obtain ⟨metadata, hmetadata, h⟩ := bind_eq_ok.mp h
  exact bind_eq_ok.mpr ⟨_, getD_mapAt rfl hfieldsV1, bind_eq_ok.mpr ⟨_, getD_mapAt rfl hmetadata, getD_mapAt rfl h⟩⟩

theorem isHelmApply_eq_ok {b : Bool} (h : isHelmApply manager = .ok b) :
    b = true ↔ manager.get? "manager" = some (.str "helm") ∧ manager.get? "operation" = some (.str "Apply") := by
  obtain ⟨name, hname, h⟩ := bind_eq_ok.mp h
  have hname := item_eq_ok.mp hname
  split at h
  · next hhelm =>
    obtain ⟨operation, hoperation, h⟩ := bind_eq_ok.mp h
    obtain rfl := Except.ok.inj h
    rw [hname, item_eq_ok.mp hoperation, hhelm]
    simp
  · next hhelm =>
    obtain rfl := Except.ok.inj h
    rw [hname]
    simp [hhelm]

theorem isHelmApply_of (h : manager.get? "manager" = some (.str "helm") ∧ manager.get? "operation" = some (.str "Apply")) :
    isHelmApply manager = .ok true := by
  refine bind_eq_ok.mpr ⟨.str "helm", item_eq_ok.mpr h.1, ?_⟩
  rw [if_pos rfl]
  exact bind_eq_ok.mpr ⟨.str "Apply", item_eq_ok.mpr h.2, rfl⟩

/-- The entries that an ownership keeps. -/
def OwnsObject (manager : Json) : Prop := ∀ v, getAt annotationsPath manager = some v → ∃ fields, v = .obj fields

theorem ownedFields_obj (ho : OwnsObject manager) (h : ownedFields manager = .ok v) : ∃ fields, v = .obj fields := by
  rcases ownedFields_eq_ok h with h | ⟨-, rfl⟩
  · exact ho v h
  · exact ⟨[], rfl⟩

/-- The tokens of the keys that are owned are the tokens of all keys, as far as the entries go. -/
theorem dropKeys_owned : dropKeys ((keys.filter fun key => ("f:" ++ key) ∈ fields.map Prod.fst).map fun key => "f:" ++ key)
    (.obj fields) = dropKeys (keys.map fun key => "f:" ++ key) (.obj fields) := by
  refine congrArg Json.obj (List.filter_congr fun e he => ?_)
  have hkey : e.1 ∈ fields.map Prod.fst := List.mem_map_of_mem he
  refine decide_eq_decide.mpr (not_congr ⟨fun h => ?_, fun h => ?_⟩)
  · obtain ⟨key, hmem, heq⟩ := List.mem_map.mp h
    exact List.mem_map.mpr ⟨key, List.mem_of_mem_filter hmem, heq⟩
  · obtain ⟨key, hmem, heq⟩ := List.mem_map.mp h
    exact List.mem_map.mpr ⟨key, List.mem_filter.mpr ⟨hmem, decide_eq_true (heq ▸ hkey)⟩, heq⟩

theorem mapAt_const (hv : v.Proper) (hx : getAt path v = some x) : mapAt path (fun _ => x) v = v := by
  refine (mapAt_congr hv fun c hc => ?_).trans mapAt_id
  exact Option.some.inj (hx.symm.trans hc)

/-- The operations for one entry: none where it stays as it is, and else those whose effect is the release. -/
theorem managerRemovals_eq_ok (hm : manager.Proper) (ho : OwnsObject manager) (hkeys : keys.Nodup)
    (h : managerRemovals keys index manager = .ok operations) :
    operations = [] ∧ releaseManager keys manager = manager ∨
    ∃ owned ≠ [], operations = owned.map (removeOperation index) ∧
      updateAt annotationsPath (fun v => (owned.map fun key => "f:" ++ key).foldlM (fun v token => removeChild token v) v)
        manager = some (releaseManager keys manager) := by
  obtain ⟨v, hv, h⟩ := bind_eq_ok.mp h
  obtain ⟨fields, rfl⟩ := ownedFields_obj ho hv
  obtain ⟨owned, howned, h⟩ := bind_eq_ok.mp h
  rw [ownedKeys_obj] at howned
  obtain rfl := Except.ok.inj howned
  split at h
  · next hnone =>
    refine .inl ⟨(Except.ok.inj h).symm, ?_⟩
    rw [releaseManager]
    split
    · rfl
    · -- Nothing is owned, so nothing is dropped.
      refine (mapAt_congr hm fun c hc => ?_).trans mapAt_id
      have hsame : dropKeys (keys.map fun key => "f:" ++ key) (.obj fields) = .obj fields := by
        rw [← dropKeys_owned, hnone]
        simp [dropKeys]
      rcases ownedFields_eq_ok hv with hfound | ⟨hmissing, -⟩
      · rw [Option.some.inj (hc.symm.trans hfound), hsame]
      · cases (hc.symm.trans hmissing)
  · next hsome =>
    obtain ⟨apply, happly, h⟩ := bind_eq_ok.mp h
    have hhelm := isHelmApply_eq_ok happly
    cases apply with
    | true => exact .inl ⟨(Except.ok.inj h).symm, if_pos (hhelm.mp rfl)⟩
    | false =>
      obtain ⟨_, -, h⟩ := bind_eq_ok.mp h
      refine .inr ⟨_, hsome, (Except.ok.inj h).symm, ?_⟩
      rw [releaseManager, if_neg fun h => absurd (hhelm.mpr h) Bool.false_ne_true]
      have hfound : getAt annotationsPath manager = some (.obj fields) := by
        rcases ownedFields_eq_ok hv with hfound | ⟨-, hempty⟩
        · exact hfound
        · refine absurd ?_ hsome
          rw [Json.obj.inj hempty]
          simp
      have hnodup : ((keys.filter fun key => ("f:" ++ key) ∈ fields.map Prod.fst).map fun key => "f:" ++ key).Nodup :=
        (hkeys.filter _).map fun a b heq => (String.append_right_inj "f:").mp heq
      have hmem : ∀ token ∈ (keys.filter fun key => ("f:" ++ key) ∈ fields.map Prod.fst).map fun key => "f:" ++ key,
          token ∈ fields.map Prod.fst :=
        List.forall_mem_map.mpr fun key hkey => of_decide_eq_true (List.mem_filter.mp hkey).2
      have hupdate := updateAt_mapAt
        (f := fun v => ((keys.filter fun key => ("f:" ++ key) ∈ fields.map Prod.fst).map fun key => "f:" ++ key).foldlM
          (fun v token => removeChild token v) v) (x := .obj fields) hm hfound
      rw [mapAt_const hm hfound] at hupdate
      rw [hupdate, removeChildren hnodup hmem, Option.map_some]
      refine congrArg some (mapAt_congr hm fun c hc => ?_)
      rw [Option.some.inj (hc.symm.trans hfound), ← dropKeys_owned]
      rfl

/-- A released entry needs nothing more. -/
theorem managerRemovals_released (ho : OwnsObject manager) (h : managerRemovals keys index manager = .ok operations)
    (index' : ℕ) : managerRemovals keys index' (releaseManager keys manager) = .ok [] := by
  obtain ⟨v, hv, h⟩ := bind_eq_ok.mp h
  obtain ⟨fields, rfl⟩ := ownedFields_obj ho hv
  rw [releaseManager]
  split
  · next hhelm =>
    refine bind_eq_ok.mpr ⟨_, hv, bind_eq_ok.mpr ⟨_, ownedKeys_obj, ?_⟩⟩
    split
    · rfl
    · exact bind_eq_ok.mpr ⟨true, isHelmApply_of hhelm, rfl⟩
  · refine bind_eq_ok.mpr ⟨_, ownedFields_mapAt hv, bind_eq_ok.mpr ⟨_, ownedKeys_obj, ?_⟩⟩
    rw [if_pos]
    · rfl
    · refine List.filter_eq_nil_iff.mpr fun key hkey hmem => ?_
      obtain ⟨e, he, heq⟩ := List.mem_map.mp (of_decide_eq_true hmem)
      have hdropped := of_decide_eq_true (List.mem_filter.mp he).2
      exact hdropped (heq ▸ List.mem_map_of_mem hkey)

end Managers
section Loop
variable {doc : Json} {managers before : List Json} {index : ℕ} {operations : List Json} {annotations : List (String × Json)}
  {role : String} {patch : List Json}

/-- A document with other managers in it. -/
def withManagers (doc : Json) (managers : List Json) : Json := mapAt managersPath (fun _ => .arr managers) doc

theorem applyPatch_append {patch patch' : List Json} :
    applyPatch (patch ++ patch') v = (applyPatch patch v).bind (applyPatch patch') := List.foldlM_append

/-- The operations of the loop, from one entry on, release the entries from there on. -/
theorem removals_apply (hdoc : doc.Proper) (hx : getAt managersPath doc = some x) (hkeys : keys.Nodup)
    (hproper : ∀ m ∈ managers, m.Proper) (howns : ∀ m ∈ managers, OwnsObject m) (hindex : index = before.length)
    (h : removals keys index managers = .ok operations) : applyPatch operations (withManagers doc (before ++ managers)) =
      some (withManagers doc (before ++ managers.map (releaseManager keys))) := by
  induction managers generalizing index before operations with
  | nil =>
    obtain rfl := Except.ok.inj h
    rfl
  | cons manager managers ih =>
    obtain ⟨hm, hproper⟩ := List.forall_mem_cons.mp hproper
    obtain ⟨ho, howns⟩ := List.forall_mem_cons.mp howns
    obtain ⟨first, hfirst, h⟩ := bind_eq_ok.mp h
    obtain ⟨rest, hrest, h⟩ := bind_eq_ok.mp h
    obtain rfl := Except.ok.inj h
    have hnext : applyPatch rest (withManagers doc (before ++ releaseManager keys manager :: managers)) =
        some (withManagers doc (before ++ releaseManager keys manager :: managers.map (releaseManager keys))) := by
      have hlength : index + 1 = (before ++ [releaseManager keys manager]).length := by simp [hindex]
      have hstep := ih hproper howns hlength hrest
      rwa [List.append_assoc, List.append_assoc] at hstep
    have hone : applyPatch first (withManagers doc (before ++ manager :: managers)) =
        some (withManagers doc (before ++ releaseManager keys manager :: managers)) := by
      rcases managerRemovals_eq_ok hm ho hkeys hfirst with ⟨rfl, hsame⟩ | ⟨owned, hne, rfl, hupdate⟩
      · rw [hsame]
        rfl
      · have hitem : (before ++ manager :: managers)[index]? = some manager := by simp [hindex]
        have hset (m : Json) : (before ++ manager :: managers).set index m = before ++ m :: managers := by
          simp [hindex]
        rw [applyRemovals hne, withManagers, updateAt_mapAt hdoc hx]
        simp only [updateChild, arrayIndex_toString, Option.bind_some, hitem, hupdate, Option.map_some, hset]
        rfl
    rw [applyPatch_append, hone, Option.bind_some, List.map_cons]
    exact hnext

/-- Once the entries are released, the loop has nothing to do. -/
theorem removals_released (howns : ∀ m ∈ managers, OwnsObject m) (h : removals keys index managers = .ok operations) :
    removals keys index (managers.map (releaseManager keys)) = .ok [] := by
  induction managers generalizing index operations with
  | nil => rfl
  | cons manager managers ih =>
    obtain ⟨ho, howns⟩ := List.forall_mem_cons.mp howns
    obtain ⟨first, hfirst, h⟩ := bind_eq_ok.mp h
    obtain ⟨rest, hrest, -⟩ := bind_eq_ok.mp h
    exact bind_eq_ok.mpr ⟨[], managerRemovals_released ho hfirst index, bind_eq_ok.mpr ⟨[], ih howns hrest, rfl⟩⟩

theorem get?_mapAt_ne {k : String} (hk : k ≠ key) : (mapAt (key :: path) g v).get? k = v.get? k := by
  cases v with
  | obj fields =>
    have hfound : (mapKey key (mapAt path g) fields).lookup k = fields.lookup k := by rw [lookup_mapKey, if_neg hk]
    exact hfound
  | _ => rfl

theorem get?_mapAt : (mapAt (key :: path) g v).get? key = (v.get? key).map (mapAt path g) := by
  cases v with
  | obj fields =>
    have hfound : (mapKey key (mapAt path g) fields).lookup key = (fields.lookup key).map (mapAt path g) := by
      rw [lookup_mapKey, if_pos rfl]
    exact hfound
  | _ => rfl

theorem item_mapAt (h : v.item key = .ok y) : (mapAt (key :: path) g v).item key = .ok (mapAt path g y) := by
  refine item_eq_ok.mpr ?_
  rw [get?_mapAt, item_eq_ok.mp h]
  rfl

theorem item_mapAt_ne {k : String} (hk : k ≠ key) (h : v.item k = .ok y) : (mapAt (key :: path) g v).item k = .ok y := by
  refine item_eq_ok.mpr ?_
  rw [get?_mapAt_ne hk]
  exact item_eq_ok.mp h

theorem getD_mapAt_ne {k : String} (hk : k ≠ key) (h : v.getD k x = .ok y) :
    (mapAt (key :: path) g v).getD k x = .ok y := by
  obtain ⟨fields, rfl, rfl⟩ := getD_eq_ok h
  have hfound : (mapKey key (mapAt path g) fields).lookup k = fields.lookup k := by rw [lookup_mapKey, if_neg hk]
  exact congrArg (fun found => Except.ok (Option.getD found x)) hfound

/-- What the loop goes through: the list that stands there, or nothing. -/
theorem managers_cases {metadata listed : Json} (hmetadata : doc.item "metadata" = .ok metadata)
    (hlisted : metadata.getD "managedFields" (.arr []) = .ok listed) (hmanagers : listed.iterate = .ok managers)
    (h : removals keys index managers = .ok operations) :
    listed = .arr managers ∧ getAt managersPath doc = some listed ∨
      managers = [] ∧ ∀ c, getAt managersPath doc = some c → releaseManagers keys c = c := by
  obtain ⟨fields, rfl, rfl⟩ := getD_eq_ok hlisted
  have hpath : getAt managersPath doc = fields.lookup "managedFields" := by
    have hbind : getAt managersPath doc = (doc.get? "metadata").bind (getAt ["managedFields"]) := rfl
    have hlast : getAt ["managedFields"] (.obj fields) = (fields.lookup "managedFields").bind (getAt []) := rfl
    rw [hbind, item_eq_ok.mp hmetadata, Option.bind_some, hlast]
    cases fields.lookup "managedFields" <;> rfl
  -- A string has no fields to look into.
  have hnone (text : String) (rest : List Json) : managers ≠ .str text :: rest := by
    rintro rfl
    obtain ⟨_, hfirst, -⟩ := bind_eq_ok.mp h
    contradiction
  rw [hpath]
  cases hfound : fields.lookup "managedFields" with
  | none =>
    rw [hfound] at hmanagers
    exact .inr ⟨(Except.ok.inj hmanagers).symm, fun c hc => by cases hc⟩
  | some listed =>
    rw [hfound] at hmanagers
    cases listed with
    | arr items =>
      obtain rfl := Except.ok.inj hmanagers
      exact .inl ⟨rfl, rfl⟩
    | obj entries =>
      refine .inr ⟨?_, fun c hc => ?_⟩
      · cases entries with
        | nil => exact (Except.ok.inj hmanagers).symm
        | cons e entries => exact absurd (Except.ok.inj hmanagers).symm (hnone _ _)
      · obtain rfl := Option.some.inj hc
        rfl
    | str text =>
      refine .inr ⟨?_, fun c hc => ?_⟩
      · have hchars : text.toList.map (fun c => Json.str (String.ofList [c])) = managers := Except.ok.inj hmanagers
        cases hcs : text.toList with
        | nil => rw [← hchars, hcs, List.map_nil]
        | cons c cs => exact absurd (by rw [← hchars, hcs, List.map_cons]) (hnone _ _)
      · obtain rfl := Option.some.inj hc
        rfl
    | _ => contradiction

theorem getAt_proper (hv : v.Proper) (hx : getAt path v = some x) : x.Proper := by
  induction path generalizing v with
  | nil => exact Option.some.inj hx ▸ hv
  | cons key path ih =>
    obtain ⟨d, hd, hrest⟩ := Option.bind_eq_some_iff.mp hx
    cases v with
    | obj fields => exact ih (properFields_iff.mp hv.2 (key, d) ((lookup_iff_mem hv.1).mp hd)) hrest
    | _ => contradiction

theorem applyOperation_test {metadata : Json} (hmetadata : doc.item "metadata" = .ok metadata)
    (hx : metadata.item "resourceVersion" = .ok x) : applyOperation doc (testOperation x) = some doc := by
  have hop : (testOperation x).get? "op" = some (.str "test") := rfl
  have hpath : (testOperation x).get? "path" = some (.str "/metadata/resourceVersion") := rfl
  have hvalue : (testOperation x).get? "value" = some x := rfl
  have hpointer : pointer "/metadata/resourceVersion" = some ["metadata", "resourceVersion"] := by decide +kernel
  have hlocate : locate ["metadata", "resourceVersion"] doc = some x := by
    cases doc with
    | obj fields =>
      cases metadata with
      | obj entries =>
        have hfirst : fields.lookup "metadata" = some (.obj entries) := item_eq_ok.mp hmetadata
        have hsecond : entries.lookup "resourceVersion" = some x := item_eq_ok.mp hx
        rw [locate, hfirst, Option.bind_some, locate, hsecond]
        rfl
      | _ => contradiction
    | _ => contradiction
  simp only [applyOperation, hop, hpath, hvalue, hpointer, hlocate, Option.bind_some]
  exact if_pos (decide_eq_true (Same.refl x))

end Loop
end Json

section Repair
open Json
variable {doc : Json} {keys : List String}

theorem annotationsOf_released {current : Json} (h : annotationsOf doc = .ok current) :
    annotationsOf (released keys doc) = .ok current := by
  obtain ⟨metadata, hmetadata, h⟩ := bind_eq_ok.mp h
  exact bind_eq_ok.mpr ⟨_, item_mapAt hmetadata, getD_mapAt_ne (by decide) h⟩

theorem liveImages_released {images : List (Json × Json)} (h : liveImages doc = .ok images) :
    liveImages (released keys doc) = .ok images := by
  obtain ⟨spec, hspec, h⟩ := bind_eq_ok.mp h
  exact bind_eq_ok.mpr ⟨spec, item_mapAt_ne (by decide) hspec, h⟩

/-- The ownership repair is minimal and idempotent. For every deployment that the function gives a patch for, the patch
applies to the document it was made from, whatever characters the keys have. Its result is the document in which the
keys are gone from what every entry of `managedFields` owns, Helm's Apply apart, with everything else as it was; and
there the function only gives the test of the resource version. -/
theorem ownership_repair {doc : Json} {role : String} {annotations : List (String × Json)} {patch : List Json}
    (hdoc : doc.Proper) (hkeys : (annotations.map Prod.fst).Nodup) (howns : OwnsObjects doc)
    (h : ownershipPatch doc role annotations = .ok patch) :
    (∃ resourceVersion operations, patch = testOperation resourceVersion :: operations ∧
      Json.applyPatch patch doc = some (released (annotations.map Prod.fst) doc) ∧
      ownershipPatch (released (annotations.map Prod.fst) doc) role annotations =
        .ok [testOperation resourceVersion]) ∧
    (∀ key ≠ "metadata", (released (annotations.map Prod.fst) doc).get? key = doc.get? key) ∧
    ∀ metadata, doc.get? "metadata" = some metadata → ∃ metadata',
      (released (annotations.map Prod.fst) doc).get? "metadata" = some metadata' ∧
      (∀ key ≠ "managedFields", metadata'.get? key = metadata.get? key) ∧
      ∀ managers, metadata.get? "managedFields" = some (.arr managers) → metadata'.get? "managedFields" =
        some (.arr (managers.map (releaseManager (annotations.map Prod.fst)))) := by
  simp only [ownershipPatch, bind_eq_ok, refuse_eq_ok] at h
  obtain ⟨current, hcurrent, images, himages, differs, hdiffers, _, rfl, image, himage, _, hsame, metadata, hmetadata,
    resourceVersion, hversion, listed, hlisted, managers, hmanagers, operations, hoperations, hpatch⟩ := h
  obtain rfl := Except.ok.inj hpatch
  refine ⟨⟨resourceVersion, operations, rfl, ?_, ?_⟩, fun key hkey => get?_mapAt_ne hkey, fun metadata hmetadata => ?_⟩
  · have htest : applyPatch (testOperation resourceVersion :: operations) doc = applyPatch operations doc := by
      rw [applyPatch, List.foldlM_cons, applyOperation_test hmetadata hversion]
      rfl
    rw [htest]
    rcases managers_cases hmetadata hlisted hmanagers hoperations with ⟨rfl, hfound⟩ | ⟨rfl, hnothing⟩
    · have hproper : ∀ m ∈ managers, m.Proper := properItems_iff.mp (getAt_proper hdoc hfound)
      have hlist : withManagers doc managers = doc := mapAt_const hdoc hfound
      have hreleased : released (annotations.map Prod.fst) doc =
          withManagers doc (managers.map (releaseManager (annotations.map Prod.fst))) :=
        mapAt_congr hdoc fun c hc => by rw [Option.some.inj (hc.symm.trans hfound)]; rfl
      have happly : applyPatch operations (withManagers doc managers) =
          some (withManagers doc (managers.map (releaseManager (annotations.map Prod.fst)))) :=
        @removals_apply _ _ doc managers [] 0 operations hdoc hfound hkeys hproper (howns managers hfound) rfl hoperations
      rwa [hlist, ← hreleased] at happly
    · obtain rfl := Except.ok.inj hoperations
      have hreleased : released (annotations.map Prod.fst) doc = doc := (mapAt_congr hdoc hnothing).trans mapAt_id
      rw [hreleased]
      rfl
  · have hmetadata' : (released (annotations.map Prod.fst) doc).item "metadata" =
        .ok (mapAt ["managedFields"] (releaseManagers (annotations.map Prod.fst)) metadata) := item_mapAt hmetadata
    have hlisted' : (mapAt ["managedFields"] (releaseManagers (annotations.map Prod.fst)) metadata).getD "managedFields"
        (.arr []) = .ok (releaseManagers (annotations.map Prod.fst) listed) := getD_mapAt rfl hlisted
    obtain ⟨managers', hmanagers', hnone⟩ : ∃ managers',
        (releaseManagers (annotations.map Prod.fst) listed).iterate = .ok managers' ∧
        removals (annotations.map Prod.fst) 0 managers' = .ok [] := by
      rcases managers_cases hmetadata hlisted hmanagers hoperations with ⟨rfl, hfound⟩ | ⟨rfl, -⟩
      · exact ⟨_, rfl, removals_released (howns managers hfound) hoperations⟩
      · refine ⟨[], ?_, rfl⟩
        cases listed with
        | arr items =>
          obtain rfl := Except.ok.inj hmanagers
          rfl
        | _ => exact hmanagers
    simp only [ownershipPatch, bind_eq_ok, refuse_eq_ok]
    exact ⟨current, annotationsOf_released hcurrent, images, liveImages_released himages, false, hdiffers, (), rfl, image,
      himage, (), hsame, _, hmetadata', resourceVersion, item_mapAt_ne (by decide) hversion, _, hlisted', managers',
      hmanagers', [], hnone, rfl⟩
  · rw [released, managersPath, get?_mapAt, hmetadata]
    refine ⟨_, rfl, fun key hkey => get?_mapAt_ne hkey, fun managers hmanagers => ?_⟩
    rw [get?_mapAt, hmanagers]
    rfl

end Repair
namespace Demo

/-- Two annotations to give up, one with both of the characters that a pointer escapes. -/
def givenUp : List (String × Json) := [("a~b/c", .str "x"), ("delivery.mic3.io/image", .str "image")]

/-- A deployment in which `kubectl annotate` owns them, and one that it keeps. -/
def annotated : Json := .obj [
  ("metadata", .obj [("resourceVersion", .str "11"), ("annotations", .obj givenUp),
    ("managedFields", .arr [.obj [("manager", .str "kubectl-annotate"), ("operation", .str "Update"),
      ("fieldsV1", .obj [("f:metadata", .obj [("f:annotations", .obj [("f:a~b/c", .obj []),
        ("f:delivery.mic3.io/image", .obj []), ("f:example.test/preserve", .obj [])])])])]])]),
  ("spec", .obj [("template", .obj [("spec", .obj [("containers", .arr [
    .obj [("name", .str "worker"), ("image", .str "image")]])])])])]

theorem annotated_ownsObjects : OwnsObjects annotated := by
  intro managers h manager hmem v hv
  obtain rfl := Json.arr.inj (Option.some.inj h)
  obtain rfl := List.mem_singleton.mp hmem
  obtain rfl := Option.some.inj hv
  exact ⟨_, rfl⟩

end Demo

theorem ownership_repair_demo : ∃ patch, ownershipPatch Demo.annotated "worker" Demo.givenUp = .ok patch ∧
    patch.length = 3 ∧ Json.applyPatch patch Demo.annotated = some (released ["a~b/c", "delivery.mic3.io/image"] Demo.annotated) := by
  obtain ⟨patch, hpatch, hlength⟩ : ∃ patch, ownershipPatch Demo.annotated "worker" Demo.givenUp = .ok patch ∧
      patch.length = 3 := ⟨_, rfl, rfl⟩
  have hproper : Demo.annotated.Proper := by
    simp [Demo.annotated, Demo.givenUp, Json.Proper, Json.ProperFields, Json.ProperItems]
  have hkeys : (Demo.givenUp.map Prod.fst).Nodup := by decide
  obtain ⟨⟨-, -, -, happly, -⟩, -⟩ := ownership_repair hproper hkeys Demo.annotated_ownsObjects hpatch
  exact ⟨patch, hpatch, hlength, happly⟩

end Mic3
