import Mic3.Catalog

/-! What a release definition is stored as is read back as the same definition: the JSON round trip of
the validated values. -/
namespace Mic3

section Lists
variable {α β : Type} {f : α → Except Raised β} {items : List α} {values : List β}

theorem mapM_cons_ok {a : α} (h : (a :: items).mapM f = .ok values) :
    ∃ b rest, f a = .ok b ∧ items.mapM f = .ok rest ∧ values = b :: rest := by
  rw [List.mapM_cons] at h
  obtain ⟨b, hb, h⟩ := bind_eq_ok.mp h
  obtain ⟨rest, hrest, h⟩ := bind_eq_ok.mp h
  exact ⟨b, rest, hb, hrest, (Except.ok.inj h).symm⟩

/-- Every value of a list that was read comes from one of its items. -/
theorem mapM_source (h : items.mapM f = .ok values) : ∀ b ∈ values, ∃ a, f a = .ok b := by
  induction items generalizing values with
  | nil =>
    obtain rfl := Except.ok.inj h
    exact List.forall_mem_nil _
  | cons a items ih =>
    obtain ⟨b, rest, hb, hrest, rfl⟩ := mapM_cons_ok h
    exact List.forall_mem_cons.mpr ⟨⟨a, hb⟩, ih hrest⟩

/-- A list of stored values is read when each of them is. -/
theorem mapM_stored {store : β → α} (h : ∀ b ∈ values, f (store b) = .ok b) :
    (values.map store).mapM f = .ok values := by
  induction values with
  | nil => rfl
  | cons b values ih =>
    obtain ⟨hb, hrest⟩ := List.forall_mem_cons.mp h
    rw [List.map_cons, List.mapM_cons, hb, ih hrest]
    rfl

end Lists

theorem sorted_sorted (texts : List String) : sorted (sorted texts) = sorted texts :=
  (List.pairwise_insertionSort (· ≤ ·) texts).insertionSort_eq

namespace OutputRequirements
variable {value : Json}

theorem checkPath_read {path : String} (h : checkPath value = .ok path) : value = .str path := by
  unfold checkPath at h
  split at h
  · split at h
    · contradiction
    · split at h
      · contradiction
      · rw [Except.ok.inj h]
  · contradiction

/-- Requirements that were read are read again from the list they are stored as. -/
theorem fromList_read {r : OutputRequirements} (h : fromList value = .ok r) :
    fromList (.arr (r.requiredFiles.map .str)) = .ok r := by
  unfold fromList at h
  split at h
  · rename_i items
    obtain ⟨paths, hpaths, h⟩ := bind_eq_ok.mp h
    split at h
    · contradiction
    · rename_i hnodup
      obtain rfl := Except.ok.inj h
      have hchecked : ∀ path ∈ sorted paths, checkPath (.str path) = .ok path := by
        intro path hpath
        obtain ⟨item, hitem⟩ := mapM_source hpaths path ((List.mem_insertionSort _).mp hpath)
        exact checkPath_read hitem ▸ hitem
      have hdistinct : ¬ ¬ (sorted paths).Nodup :=
        not_not.mpr ((List.perm_insertionSort _ paths).nodup_iff.mpr (not_not.mp hnodup))
      have hread : fromList (.arr ((sorted paths).map .str)) = .ok ⟨sorted (sorted paths)⟩ :=
        bind_eq_ok.mpr ⟨_, mapM_stored hchecked, if_neg hdistinct⟩
      rw [hread, sorted_sorted]
  · contradiction

end OutputRequirements

namespace Invocation
variable {value : Json}

theorem argument_read {arg : String} (h : argument value = .ok arg) : value = .str arg := by
  unfold argument at h
  split at h
  · split at h
    · contradiction
    · rw [Except.ok.inj h]
  · contradiction

theorem argumentList_read {args : List String} (h : argumentList value = .ok args) :
    argumentList (.arr (args.map .str)) = .ok args := by
  unfold argumentList at h
  split at h
  · contradiction
  · rename_i items hne
    have hread : (args.map Json.str).mapM argument = .ok args := by
      refine mapM_stored fun arg harg => ?_
      obtain ⟨item, hitem⟩ := mapM_source h arg harg
      exact argument_read hitem ▸ hitem
    cases items with
    | nil => exact absurd rfl hne
    | cons item items =>
      obtain ⟨b, rest, -, -, rfl⟩ := mapM_cons_ok h
      exact hread
  · contradiction

theorem directory_read {path : String} (h : directory value = .ok path) : value = .str path := by
  unfold directory at h
  split at h
  · split at h
    · rw [Except.ok.inj h]
    · contradiction
  · contradiction

/-- What a dict with the right keys is read as, field by field. -/
theorem fromDict_fields {members : List (String × Json)} {i : Invocation}
    (hkeys : ¬ (¬ fields ⊆ members.map (·.1) ∨ ¬ members.map (·.1) ⊆ "required_outputs" :: fields))
    (hargs : argumentList (((Json.obj members).get? "arguments").getD .null) = .ok i.arguments)
    (hwork : directory (((Json.obj members).get? "working_directory").getD .null) =
      .ok i.workingDirectory)
    (hout : directory (((Json.obj members).get? "output_directory").getD .null) = .ok i.outputDirectory)
    (hreq : OutputRequirements.fromList (((Json.obj members).get? "required_outputs").getD (.arr [])) =
      .ok i.outputRequirements) : fromDict (.obj members) = .ok i := by
  rw [fromDict, if_neg hkeys, hargs, hwork, hout, hreq]
  rfl

/-- An invocation that was read is read again from the dict it is stored as. -/
theorem fromDict_read {i : Invocation} (h : fromDict value = .ok i) : fromDict i.toDict = .ok i := by
  unfold fromDict at h
  split at h
  · simp only at h
    split at h
    · contradiction
    · obtain ⟨arguments, hargs, h⟩ := bind_eq_ok.mp h
      obtain ⟨workingDirectory, hwork, h⟩ := bind_eq_ok.mp h
      obtain ⟨outputDirectory, hout, h⟩ := bind_eq_ok.mp h
      obtain ⟨requirements, hreq, h⟩ := bind_eq_ok.mp h
      obtain rfl := Except.ok.inj h
      have hargs' := argumentList_read hargs
      have hwork' := directory_read hwork ▸ hwork
      have hout' := directory_read hout ▸ hout
      have hreq' := OutputRequirements.fromList_read hreq
      unfold toDict
      split
      · rename_i hnone
        refine fromDict_fields (by simp [computationFields, fields]) hargs' hwork' hout' ?_
        rwa [show requirements.requiredFiles = [] from hnone] at hreq'
      · exact fromDict_fields (by simp [computationFields, fields]) hargs' hwork' hout' hreq'
  · contradiction

end Invocation

namespace ExecutionDefinition
variable {value : Json}

theorem validateKey_read {key text : String} (h : validateKey key = .ok text) : key = text := by
  unfold validateKey at h
  split at h
  · exact Except.ok.inj h
  · contradiction

theorem modeItem_read {item : String × Json} {mode : String × Invocation} (h : modeItem item = .ok mode) :
    modeItem (mode.1, mode.2.toDict) = .ok mode := by
  obtain ⟨key, hkey, h⟩ := bind_eq_ok.mp h
  obtain ⟨invocation, hinvocation, h⟩ := bind_eq_ok.mp h
  obtain rfl := Except.ok.inj h
  obtain rfl := validateKey_read hkey
  simp only [modeItem, hkey, Invocation.fromDict_read hinvocation]
  rfl

/-- A definition that was read is read again from the document it is stored as. -/
theorem fromDict_read {d : ExecutionDefinition} (h : fromDict value = .ok d) :
    fromDict d.toDict = .ok d := by
  unfold fromDict at h
  split at h
  · split at h
    · contradiction
    · split at h
      · contradiction
      · rename_i modes hne _
        obtain ⟨found, hfound, h⟩ := bind_eq_ok.mp h
        obtain rfl := Except.ok.inj h
        have hread : (found.map fun m => (m.1, m.2.toDict)).mapM modeItem = .ok found := by
          refine mapM_stored fun mode hmode => ?_
          obtain ⟨item, hitem⟩ := mapM_source hfound mode hmode
          exact modeItem_read hitem
        cases modes with
        | nil => exact absurd rfl hne
        | cons item modes =>
          obtain ⟨b, rest, -, -, rfl⟩ := mapM_cons_ok hfound
          exact bind_eq_ok.mpr ⟨_, hread, rfl⟩
      · contradiction
  · contradiction

end ExecutionDefinition

/-- A release configuration holds a definition that reads back. -/
theorem RegisterRelease.definition_read {config : Json} {d : ReleaseDefinition}
    (h : definition config = .ok d) :
    ExecutionDefinition.fromDict d.executionDefinition.toDict = .ok d.executionDefinition := by
  unfold definition at h
  split at h
  · simp only at h
    split at h
    · contradiction
    · obtain ⟨modelId, -, h⟩ := bind_eq_ok.mp h
      obtain ⟨displayName, -, h⟩ := bind_eq_ok.mp h
      obtain ⟨imageDigest, -, h⟩ := bind_eq_ok.mp h
      obtain ⟨modelId, -, h⟩ := bind_eq_ok.mp h
      split at h
      · contradiction
      · obtain ⟨execution, hexecution, h⟩ := bind_eq_ok.mp h
        obtain rfl := Except.ok.inj h
        exact ExecutionDefinition.fromDict_read hexecution
  · contradiction

end Mic3
