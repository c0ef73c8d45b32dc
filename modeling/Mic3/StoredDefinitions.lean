import Mic3.JsonValues
import Mic3.RequiredOutputs
import Mic3.Tables

/-! Catalog definitions survive storage: neither the order of keys nor the spelling of optional requirements
changes what a document is read as. -/
namespace Mic3

section Lists
variable {α β : Type} {f : α → Except Raised β} {items : List α} {values : List β}

theorem mapM_ok_of_mem (h : ∀ a ∈ items, ∃ b, f a = .ok b) : ∃ values, items.mapM f = .ok values := by
  induction items with
  | nil => exact ⟨[], rfl⟩
  | cons a items ih =>
    obtain ⟨⟨b, hb⟩, hrest⟩ := List.forall_mem_cons.mp h
    obtain ⟨values, hvalues⟩ := ih hrest
    exact ⟨b :: values, by rw [List.mapM_cons, hb, hvalues]; rfl⟩

/-- Every item of a list that was read is read. -/
theorem mapM_mem (h : items.mapM f = .ok values) : ∀ a ∈ items, ∃ b ∈ values, f a = .ok b := by
  induction items generalizing values with
  | nil => exact List.forall_mem_nil _
  | cons a items ih =>
    obtain ⟨b, rest, hb, hrest, rfl⟩ := mapM_cons_ok h
    refine List.forall_mem_cons.mpr ⟨⟨b, List.mem_cons_self, hb⟩, fun a' ha' => ?_⟩
    obtain ⟨b', hb', hread⟩ := ih hrest a' ha'
    exact ⟨b', List.mem_cons_of_mem _ hb', hread⟩

end Lists

/-- Strings have no keys to order. -/
theorem map_ordered_str {texts : List String} {items : List Json}
    (h : (texts.map Json.str).map Json.ordered = items.map Json.ordered) : items = texts.map .str := by
  induction texts generalizing items with
  | nil => exact List.map_eq_nil_iff.mp h.symm
  | cons text texts ih =>
    cases items with
    | nil => contradiction
    | cons item items =>
      obtain ⟨hhead, htail⟩ := List.cons.inj h
      have hitem : item = .str text := Json.Same.str_left (show (Json.str text).Same item from hhead)
      rw [hitem, ih htail, List.map_cons]

/-- The text of a string. -/
def Json.text : Json → String
  | .str s => s
  | _ => ""

theorem perm_map_str {items : List Json} {texts : List String} (h : items.Perm (texts.map .str)) :
    ∃ texts' : List String, texts'.Perm texts ∧ items = texts'.map .str := by
  refine ⟨items.map Json.text, ?_, ?_⟩
  · have hmapped := h.map Json.text
    rwa [List.map_map, show Json.text ∘ Json.str = id from rfl, List.map_id] at hmapped
  · rw [List.map_map]
    symm
    refine (List.map_congr_left fun item hitem => ?_).trans (List.map_id items)
    obtain ⟨s, -, rfl⟩ := List.mem_map.mp (h.mem_iff.mp hitem)
    rfl

namespace Invocation

/-- The two lists of required files have the same items; none is an empty one. -/
def RequiredAlike (v w : Option Json) : Prop :=
  ∃ items items', v.getD (.arr []) = .arr items ∧ w.getD (.arr []) = .arr items' ∧
    (items.map Json.ordered).Perm (items'.map Json.ordered)

/-- Documents of an invocation that differ in the order of keys and of required files, or in whether an empty
list of them is written. -/
def Alike (v w : Json) : Prop :=
  ∃ members members', v = .obj members ∧ w = .obj members' ∧
    (∀ key, key ≠ "required_outputs" → (members.lookup key).map Json.ordered = (members'.lookup key).map Json.ordered) ∧
    RequiredAlike (members.lookup "required_outputs") (members'.lookup "required_outputs")

variable {v w : Json} {i : Invocation}

theorem argumentList_same {args : List String} (h : argumentList v = .ok args) (hs : v.Same w) :
    argumentList w = .ok args := by
  have hv : ∃ items, v = .arr items ∧ items = args.map .str := by
    unfold argumentList at h
    split at h
    · contradiction
    · rename_i items _
      refine ⟨items, rfl, ?_⟩
      clear hs
      induction items generalizing args with
      | nil =>
        obtain rfl := Except.ok.inj h
        rfl
      | cons item items ih =>
        obtain ⟨arg, rest, harg, hrest, rfl⟩ := mapM_cons_ok h
        obtain rfl := argument_read harg
        cases items with
        | nil =>
          obtain rfl := Except.ok.inj hrest
          rfl
        | cons item' items => rw [ih (fun he => by cases he) hrest, List.map_cons]
    · contradiction
  obtain ⟨items, rfl, rfl⟩ := hv
  obtain ⟨items', rfl, hitems⟩ := hs.arr_left
  rw [map_ordered_str hitems]
  exact h

theorem directory_same {path : String} (h : directory v = .ok path) (hs : v.Same w) : directory w = .ok path := by
  obtain rfl := directory_read h
  obtain rfl := hs.str_left
  exact h

theorem requirements_alike {v w : Option Json} {r : OutputRequirements} (hs : RequiredAlike v w)
    (h : OutputRequirements.fromList (v.getD (.arr [])) = .ok r) :
    OutputRequirements.fromList (w.getD (.arr [])) = .ok r := by
  obtain ⟨items, items', hv, hw, hperm⟩ := hs
  rw [hv] at h
  rw [hw]
  obtain ⟨paths, hitems, -, -, hsame⟩ := (OutputRequirements.fromList_accepts (.arr items)).2.1 r h
  obtain rfl := Json.arr.inj hitems
  -- What is permuted is strings, so the items themselves are.
  have hstr : (paths.map Json.str).map Json.ordered = paths.map Json.str := by
    rw [List.map_map]
    rfl
  rw [hstr] at hperm
  obtain ⟨paths', hpaths', hmap⟩ := perm_map_str hperm.symm
  have hitems' : items' = paths'.map .str := by
    refine map_ordered_str ?_
    rw [hmap, List.map_map]
    rfl
  rw [hitems']
  exact hsame paths' hpaths'

theorem mem_keys_iff {members members' : List (String × Json)} {key : String}
    (h : (members.lookup key).map Json.ordered = (members'.lookup key).map Json.ordered) :
    key ∈ members.map (·.1) ↔ key ∈ members'.map (·.1) := by
  have hsome (l : List (String × Json)) : key ∈ l.map (·.1) ↔ ((l.lookup key).map Json.ordered).isSome := by
    rw [Option.isSome_map, List.lookup_isSome_iff]
    simp only [List.mem_map, beq_iff_eq]
    constructor
    · rintro ⟨e, he, rfl⟩
      exact ⟨e, he, rfl⟩
    · rintro ⟨e, he, hk⟩
      exact ⟨e, he, hk.symm⟩
  rw [hsome, hsome, h]

/-- A document that differs only so much is read as the same invocation. -/
theorem fromDict_alike (h : fromDict v = .ok i) (ha : Alike v w) : fromDict w = .ok i := by
  obtain ⟨members, members', rfl, rfl, hother, hrequired⟩ := ha
  simp only [fromDict] at h
  split at h
  · contradiction
  rename_i hkeys
  obtain ⟨arguments, hargs, h⟩ := bind_eq_ok.mp h
  obtain ⟨workingDirectory, hwork, h⟩ := bind_eq_ok.mp h
  obtain ⟨outputDirectory, hout, h⟩ := bind_eq_ok.mp h
  obtain ⟨requirements, hreq, h⟩ := bind_eq_ok.mp h
  obtain rfl := Except.ok.inj h
  obtain ⟨hall, honly⟩ := not_or.mp hkeys
  have hall := not_not.mp hall
  have honly := not_not.mp honly
  have hfield {key : String} (hkey : key ∈ fields) : key ≠ "required_outputs" := by
    rintro rfl
    exact absurd hkey (by decide)
  have hget {key : String} (hkey : key ∈ fields) :
      (((Json.obj members).get? key).getD .null).Same (((Json.obj members').get? key).getD .null) := by
    have hlookup : (members.lookup key).map Json.ordered = (members'.lookup key).map Json.ordered :=
      hother key (hfield hkey)
    simp only [Json.get?]
    revert hlookup
    cases members.lookup key <;> cases members'.lookup key <;> intro hlookup
    · exact .refl _
    · contradiction
    · contradiction
    · exact Option.some.inj hlookup
  refine fromDict_fields ?_ (argumentList_same hargs (hget (by decide))) (directory_same hwork (hget (by decide)))
    (directory_same hout (hget (by decide))) (requirements_alike hrequired hreq)
  refine not_or.mpr ⟨not_not.mpr fun key hkey => ?_, not_not.mpr fun key hkey => ?_⟩
  · exact (mem_keys_iff (hother key (hfield hkey))).mp (hall hkey)
  · by_cases hopt : key = "required_outputs"
    · exact hopt ▸ List.mem_cons_self
    · exact honly ((mem_keys_iff (hother key hopt)).mpr hkey)

/-- Reordering the stored document of an invocation is such a difference. -/
theorem alike_of_same (i : Invocation) (h : i.toDict.Same w) : Alike i.toDict w := by
  obtain ⟨members, hdict, hn, hrequired⟩ : ∃ members, i.toDict = .obj members ∧ (members.map Prod.fst).Nodup ∧
      (members.lookup "required_outputs" = none ∨ ∃ items, members.lookup "required_outputs" = some (.arr items)) := by
    unfold toDict
    split
    · exact ⟨_, rfl, by simp [computationFields], .inl (by simp [computationFields])⟩
    · exact ⟨_, rfl, by simp [computationFields], .inr ⟨_, by simp [computationFields]; rfl⟩⟩
  rw [hdict] at h ⊢
  obtain ⟨members', rfl, -, hlookup⟩ := h.obj_left hn
  refine ⟨members, members', rfl, rfl, fun key _ => hlookup key, ?_⟩
  have hkey := hlookup "required_outputs"
  rcases hrequired with hnone | ⟨items, hitems⟩
  · rw [hnone] at hkey ⊢
    have hnone' : members'.lookup "required_outputs" = none := Option.map_eq_none_iff.mp hkey.symm
    rw [hnone']
    exact ⟨[], [], rfl, rfl, .refl _⟩
  · rw [hitems] at hkey ⊢
    obtain ⟨x, hx, hsame⟩ := Option.map_eq_some_iff.mp hkey.symm
    obtain ⟨items', rfl, hmap⟩ := Json.Same.arr_left (show (Json.arr items).Same x from hsame.symm)
    rw [hx]
    exact ⟨items, items', rfl, rfl, .of_eq hmap⟩

end Invocation

namespace ExecutionDefinition

/-- Equality of definitions: the same modes with the same invocations. -/
def Equal (d d' : ExecutionDefinition) : Prop := ∀ mode, d.mode? mode = d'.mode? mode

/-- Documents of a definition whose modes differ only so much. -/
def Alike (v w : Json) : Prop :=
  ∃ modes modes' : List (String × Json), v = .obj [("modes", .obj modes)] ∧ w = .obj [("modes", .obj modes')] ∧
    (modes.map Prod.fst).Nodup ∧ (modes'.map Prod.fst).Nodup ∧
    ∀ mode, Option.Rel Invocation.Alike (modes.lookup mode) (modes'.lookup mode)

variable {v w : Json} {d d' : ExecutionDefinition}

theorem modeItem_eq_ok {item : String × Json} {mode : String × Invocation} :
    modeItem item = .ok mode ↔ mode.1 = item.1 ∧ isKey item.1 = true ∧ Invocation.fromDict item.2 = .ok mode.2 := by
  constructor
  · intro h
    obtain ⟨key, hkey, h⟩ := bind_eq_ok.mp h
    obtain ⟨invocation, hinvocation, h⟩ := bind_eq_ok.mp h
    obtain rfl := Except.ok.inj h
    have hvalid : isKey item.1 = true := by
      unfold validateKey at hkey
      split at hkey
      · assumption
      · contradiction
    exact ⟨(validateKey_read hkey).symm, hvalid, hinvocation⟩
  · rintro ⟨hname, hkey, hinvocation⟩
    have hvalid : validateKey item.1 = .ok item.1 := if_pos hkey
    exact bind_eq_ok.mpr ⟨item.1, hvalid, bind_eq_ok.mpr ⟨mode.2, hinvocation, congrArg _ (Prod.ext hname.symm rfl)⟩⟩

theorem rel_some_right {α β : Type} {r : α → β → Prop} {o : Option α} {b : β} (h : Option.Rel r o (some b)) :
    ∃ a, o = some a ∧ r a b := by
  cases h with
  | some hr => exact ⟨_, rfl, hr⟩

/-- The modes that were read, by name. -/
theorem lookup_found {modes : List (String × Json)} {found : List (String × Invocation)}
    (h : modes.mapM modeItem = .ok found) (mode : String) :
    found.lookup mode = (modes.lookup mode).bind fun x => (Invocation.fromDict x).toOption := by
  induction modes generalizing found with
  | nil =>
    obtain rfl := Except.ok.inj h
    rfl
  | cons item modes ih =>
    obtain ⟨b, rest, hb, hrest, rfl⟩ := mapM_cons_ok h
    obtain ⟨hname, -, hinvocation⟩ := modeItem_eq_ok.mp hb
    rw [List.lookup_cons, List.lookup_cons, hname, ih hrest]
    cases mode == item.1
    · rfl
    · simp only [Option.bind_some, hinvocation]
      rfl

theorem map_fst_found {modes : List (String × Json)} {found : List (String × Invocation)}
    (h : modes.mapM modeItem = .ok found) : found.map Prod.fst = modes.map Prod.fst := by
  induction modes generalizing found with
  | nil =>
    obtain rfl := Except.ok.inj h
    rfl
  | cons item modes ih =>
    obtain ⟨b, rest, hb, hrest, rfl⟩ := mapM_cons_ok h
    rw [List.map_cons, List.map_cons, ih hrest, (modeItem_eq_ok.mp hb).1]

theorem fromDict_modes {modes : List (String × Json)} :
    fromDict (.obj [("modes", .obj modes)]) = .ok d ↔ modes ≠ [] ∧ modes.mapM modeItem = .ok d.modes := by
  have hkeys : ¬ [("modes", Json.obj modes)].map (·.1) ≠ ["modes"] := not_not.mpr rfl
  have hget : (Json.obj [("modes", .obj modes)]).get? "modes" = some (.obj modes) := rfl
  simp only [fromDict, if_neg hkeys, hget]
  cases modes with
  | nil => simp
  | cons mode modes =>
    simp only [ne_eq, reduceCtorEq, not_false_eq_true, true_and]
    constructor
    · intro h
      obtain ⟨found, hfound, h⟩ := bind_eq_ok.mp h
      obtain rfl := Except.ok.inj h
      exact hfound
    · intro h
      exact bind_eq_ok.mpr ⟨d.modes, h, rfl⟩

/-- A document that differs only so much is accepted too, as an equal definition. -/
theorem fromDict_alike (h : fromDict v = .ok d) (ha : Alike v w) : ∃ d', fromDict w = .ok d' ∧ Equal d d' := by
  obtain ⟨modes, modes', rfl, rfl, hn, hn', hrel⟩ := ha
  obtain ⟨hne, hmodes⟩ := fromDict_modes.mp h
  have hread : ∀ item ∈ modes', ∃ mode, modeItem item = .ok mode := by
    intro item hitem
    have hlookup' : modes'.lookup item.1 = some item.2 := (lookup_iff_mem hn').mpr hitem
    have hitemrel := hrel item.1
    rw [hlookup'] at hitemrel
    obtain ⟨x, hx, halike⟩ := rel_some_right hitemrel
    obtain ⟨mode, -, hmode⟩ := mapM_mem hmodes _ ((lookup_iff_mem hn).mp hx)
    obtain ⟨hname, hkey, hinvocation⟩ := modeItem_eq_ok.mp hmode
    exact ⟨mode, modeItem_eq_ok.mpr ⟨hname, hkey, Invocation.fromDict_alike hinvocation halike⟩⟩
  obtain ⟨found, hfound⟩ := mapM_ok_of_mem hread
  have hne' : modes' ≠ [] := by
    rintro rfl
    obtain ⟨item, rest, rfl⟩ := List.exists_cons_of_ne_nil hne
    have hfirst := hrel item.1
    rw [List.lookup_cons, beq_self_eq_true] at hfirst
    cases hfirst
  refine ⟨⟨found⟩, fromDict_modes.mpr ⟨hne', hfound⟩, fun mode => ?_⟩
  change d.modes.lookup mode = found.lookup mode
  rw [lookup_found hmodes, lookup_found hfound]
  have hmode := hrel mode
  cases hx : modes.lookup mode with
  | none =>
    rw [hx] at hmode
    cases hy : modes'.lookup mode with
    | none => rfl
    | some y =>
      rw [hy] at hmode
      cases hmode
  | some x =>
    rw [hx] at hmode
    cases hy : modes'.lookup mode with
    | none =>
      rw [hy] at hmode
      cases hmode
    | some y =>
      rw [hy] at hmode
      cases hmode with
      | some halike =>
        obtain ⟨found', -, hfound'⟩ := mapM_mem hmodes _ ((lookup_iff_mem hn).mp hx)
        obtain ⟨-, -, hinvocation⟩ := modeItem_eq_ok.mp hfound'
        simp only [Option.bind_some, hinvocation, Invocation.fromDict_alike hinvocation halike]

theorem modes_nodup (hv : v.Proper) (h : fromDict v = .ok d) : (d.modes.map Prod.fst).Nodup := by
  unfold fromDict at h
  split at h
  · rename_i members
    split at h
    · contradiction
    · split at h
      · contradiction
      · rename_i modes _ hmodes
        obtain ⟨found, hfound, h⟩ := bind_eq_ok.mp h
        obtain rfl := Except.ok.inj h
        have hmem : ("modes", Json.obj modes) ∈ members := (lookup_iff_mem hv.1).mp hmodes
        have hproper : (Json.obj modes).Proper := Json.properFields_iff.mp hv.2 _ hmem
        change (found.map Prod.fst).Nodup
        rw [map_fst_found hfound]
        exact hproper.1
      · contradiction
  · contradiction

/-- So is reordering the stored document of a definition. -/
theorem alike_of_same (hn : (d.modes.map Prod.fst).Nodup) (h : d.toDict.Same w) : Alike d.toDict w := by
  set stored := d.modes.map fun e => (e.1, e.2.toDict) with hstored
  have hdict : d.toDict = .obj [("modes", .obj stored)] := rfl
  have hnames : (stored.map Prod.fst).Nodup := by
    rw [hstored, List.map_map]
    exact hn
  rw [hdict] at h ⊢
  have hroot : ([("modes", Json.obj stored)].map Prod.fst).Nodup := List.nodup_singleton "modes"
  obtain ⟨fields, rfl, hkeys, hlookup⟩ := h.obj_left hroot
  have hone : fields.map Prod.fst = ["modes"] := List.perm_singleton.mp hkeys.symm
  obtain ⟨e, rfl, hname⟩ := List.map_eq_singleton_iff.mp hone
  obtain ⟨name, x⟩ := e
  obtain rfl : name = "modes" := hname
  have hmodes : (Json.obj stored).Same x := Option.some.inj (hlookup "modes")
  obtain ⟨modes', rfl, hkeys', hlookup'⟩ := hmodes.obj_left hnames
  refine ⟨stored, modes', rfl, rfl, hnames, hkeys'.nodup_iff.mp hnames, fun mode => ?_⟩
  have hmode := hlookup' mode
  have hfind : stored.lookup mode = (d.modes.lookup mode).map Invocation.toDict := lookup_map_values _
  rw [hfind] at hmode ⊢
  cases hi : d.modes.lookup mode with
  | none =>
    rw [hi] at hmode
    have hnone : modes'.lookup mode = none := Option.map_eq_none_iff.mp hmode.symm
    rw [hnone]
    exact .none
  | some i =>
    rw [hi] at hmode
    obtain ⟨y, hy, hsame⟩ := Option.map_eq_some_iff.mp hmode.symm
    rw [hy]
    exact .some (i.alike_of_same hsame.symm)

/-- Equal definitions have the same document. -/
theorem Equal.toDict_same (h : Equal d d') (hn : (d.modes.map Prod.fst).Nodup)
    (hn' : (d'.modes.map Prod.fst).Nodup) : d.toDict.Same d'.toDict := by
  have hperm : d.modes.Perm d'.modes := perm_of_lookup hn hn' h
  have hstored : (d.modes.map fun e => (e.1, e.2.toDict)).Perm (d'.modes.map fun e => (e.1, e.2.toDict)) := hperm.map _
  have hnames : ((d.modes.map fun e => (e.1, e.2.toDict)).map Prod.fst).Nodup := by
    rw [List.map_map]
    exact hn
  have hmodes : (Json.obj (d.modes.map fun e => (e.1, e.2.toDict))).Same
      (.obj (d'.modes.map fun e => (e.1, e.2.toDict))) := (Json.same_obj hnames).mpr (hstored.map _)
  have hroot : ([("modes", Json.obj (d.modes.map fun e => (e.1, e.2.toDict)))].map Prod.fst).Nodup :=
    List.nodup_singleton "modes"
  refine (Json.same_obj hroot).mpr (.of_eq ?_)
  exact congrArg (fun x => [("modes", x)]) hmodes

/-- A definition is read again from its document however the keys are ordered, and what differs only in the order
of keys or required files is the same definition. -/
theorem definitions_survive_storage (hv : v.Proper) (h : fromDict v = .ok d) :
    fromDict d.toDict = .ok d ∧
    (∀ w, w.Same d.toDict → ∃ d', fromDict w = .ok d' ∧ Equal d d') ∧
    (∀ w d', fromDict w = .ok d' → Alike v w → Equal d d' ∧ d.toDict.Same d'.toDict ∧
      ∀ active, ensureActiveModesUnchanged d d' active = .ok ()) ∧
    ∀ (t : Tables) (release : ModelReleaseRow), release.executionDefinition.Same d.toDict →
      (t.models.find? release.modelId).isSome →
      ∃ r, loadReleaseDefinition t release = .ok r ∧ Equal d r.executionDefinition := by
  have hstored := fromDict_read h
  have hn := modes_nodup hv h
  have hreordered : ∀ w, w.Same d.toDict → ∃ d', fromDict w = .ok d' ∧ Equal d d' := fun w hw =>
    fromDict_alike hstored (alike_of_same hn hw.symm)
  refine ⟨hstored, hreordered, fun w d' hw halike => ?_, fun t release hrelease hmodel => ?_⟩
  · obtain ⟨d'', hd'', hequal⟩ := fromDict_alike h halike
    obtain rfl := Except.ok.inj (hw.symm.trans hd'')
    have hn' : (d'.modes.map Prod.fst).Nodup := by
      obtain ⟨modes, modes', -, rfl, -, hnodup, -⟩ := halike
      rw [map_fst_found (fromDict_modes.mp hw).2]
      exact hnodup
    exact ⟨hequal, hequal.toDict_same hn hn', fun active =>
      ensureActiveModesUnchanged_ok.mpr fun mode _ => hequal mode⟩
  · obtain ⟨d', hd', hequal⟩ := hreordered _ hrelease
    obtain ⟨model, hfound⟩ := Option.isSome_iff_exists.mp hmodel
    exact ⟨⟨model.id, model.displayName, release.imageDigest, d'⟩, by simp only [loadReleaseDefinition, hfound, hd']; rfl,
      hequal⟩

/-- An invocation whose required files are listed. -/
def checkedInvocation (required : List Json) : Json :=
  .obj [("arguments", .arr [.str "run"]), ("working_directory", .str "/work"), ("output_directory", .str "/out"),
    ("required_outputs", .arr required)]

def checkedDefinition (required : List Json) : Json := .obj [("modes", .obj [("fast", checkedInvocation required)])]

theorem definitions_survive_reordering : ∃ d d' : ExecutionDefinition,
    fromDict (checkedDefinition [.str "b", .str "a"]) = .ok d ∧
    fromDict (checkedDefinition [.str "a", .str "b"]) = .ok d' ∧ Equal d d' := by
  have hv : fromDict (checkedDefinition [.str "b", .str "a"]) =
    .ok ⟨[("fast", ⟨["run"], "/work", "/out", ⟨["a", "b"]⟩⟩)]⟩ := by rfl
  have hw : fromDict (checkedDefinition [.str "a", .str "b"]) =
    .ok ⟨[("fast", ⟨["run"], "/work", "/out", ⟨["a", "b"]⟩⟩)]⟩ := by rfl
  have hproper : (checkedDefinition [.str "b", .str "a"]).Proper := by
    simp [checkedDefinition, checkedInvocation, Json.Proper, Json.ProperFields, Json.ProperItems]
  have halike : Alike (checkedDefinition [.str "b", .str "a"]) (checkedDefinition [.str "a", .str "b"]) := by
    refine ⟨_, _, rfl, rfl, List.nodup_singleton "fast", List.nodup_singleton "fast", fun mode => ?_⟩
    by_cases hmode : mode = "fast"
    · subst hmode
      refine .some ⟨_, _, rfl, rfl, fun key hkey => ?_, _, _, rfl, rfl, .swap _ _ _⟩
      have hother : (key == "required_outputs") = false := beq_false_of_ne hkey
      simp only [List.lookup_cons, hother, List.lookup_nil]
    · have hother : (mode == "fast") = false := beq_false_of_ne hmode
      simp only [List.lookup_cons, hother, List.lookup_nil]
      exact .none
  exact ⟨_, _, hv, hw, ((definitions_survive_storage hproper hv).2.2.1 _ _ hw halike).1⟩

end ExecutionDefinition
end Mic3
