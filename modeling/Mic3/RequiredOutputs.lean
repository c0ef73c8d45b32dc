import Mic3.Documents

/-! `OutputRequirements.from_list` accepts the lists of distinct safe relative paths and no others. -/
namespace Mic3

/-- A segment of a path that names something below the directory it stands in. -/
def SafeSegment (segment : List Char) : Prop :=
  segment ≠ [] ∧ segment ≠ ['.'] ∧ segment ≠ ['.', '.'] ∧ '/' ∉ segment

/-- Segments joined by single slashes, without control characters, backslashes, wildcards or a drive. -/
structure SafePath (path : String) : Prop where
  segments : ∃ segments, segments ≠ [] ∧ path.toList = ['/'].intercalate segments ∧ ∀ s ∈ segments, SafeSegment s
  chars : ∀ c ∈ path.toList, 32 ≤ c.toNat ∧ c ∉ ['\\', '*', '?', '[', ']']
  noDrive : path.toList[1]? ≠ some ':'

theorem notMem_of_mem_splitOn {c : Char} (text : List Char) : ∀ s ∈ text.splitOn c, c ∉ s := by
  induction text with
  | nil =>
    intro s hs
    rw [List.splitOn_nil, List.mem_singleton] at hs
    exact hs ▸ List.not_mem_nil
  | cons x text ih =>
    intro s hs
    rw [List.splitOn_cons_eq_if_modifyHead] at hs
    split at hs
    · rcases List.mem_cons.mp hs with rfl | hs
      · exact List.not_mem_nil
      · exact ih s hs
    · rename_i hx
      cases hpieces : text.splitOn c with
      | nil => exact absurd hpieces (List.splitOn_ne_nil c text)
      | cons piece pieces =>
        rw [hpieces] at hs ih
        rcases List.mem_cons.mp hs with rfl | hs
        · rw [List.mem_cons, not_or]
          exact ⟨fun hc => hx (by simp [hc]), ih piece List.mem_cons_self⟩
        · exact ih s (List.mem_cons_of_mem _ hs)

namespace PurePosixPath
variable {path : String}

theorem parse_relative (h : isAbsolute path = false) :
    parse path = ⟨[], (path.toList.splitOn '/').filter fun x => x ≠ [] ∧ x ≠ ['.']⟩ := by
  have hroot : splitroot path.toList = ([], path.toList) := by
    unfold splitroot
    split
    · simp [isAbsolute, *] at h
    · simp [isAbsolute, *] at h
    · simp [isAbsolute, *] at h
    · rfl
  simp only [parse, hroot]

/-- A path is its own normal form when every piece between slashes is kept. -/
theorem str_eq_iff (h : isAbsolute path = false) (hdot : path ≠ ".") :
    (parse path).str = path.toList ↔ ∀ s ∈ path.toList.splitOn '/', s ≠ [] ∧ s ≠ ['.'] := by
  set pieces := path.toList.splitOn '/' with hpieces
  have hjoin : ['/'].intercalate pieces = path.toList := List.intercalate_splitOn '/'
  have hfree : ∀ s ∈ pieces, '/' ∉ s := notMem_of_mem_splitOn _
  have hparse : parse path = ⟨[], pieces.filter fun x => x ≠ [] ∧ x ≠ ['.']⟩ := parse_relative h
  rw [hparse]
  constructor
  · intro hstr
    simp only [str, List.nil_append] at hstr
    split at hstr
    · exact absurd (String.toList_injective (by simpa using hstr.symm)) hdot
    · rename_i hne
      -- Splitting both sides again: the pieces that are kept are all the pieces.
      have hkept : (pieces.filter fun x => x ≠ [] ∧ x ≠ ['.']) ≠ [] := by
        intro hnone
        exact hne (by rw [hnone]; rfl)
      have hsplit : (pieces.filter fun x => x ≠ [] ∧ x ≠ ['.']) = pieces := by
        have hfree' : ∀ s ∈ pieces.filter fun x => x ≠ [] ∧ x ≠ ['.'], '/' ∉ s :=
          fun s hs => hfree s (List.mem_of_mem_filter hs)
        rw [← List.splitOn_intercalate '/' hfree' hkept, hstr]
      intro s hs
      rw [← hsplit] at hs
      exact of_decide_eq_true (List.mem_filter.mp hs).2
  · intro hall
    have hkept : (pieces.filter fun x => x ≠ [] ∧ x ≠ ['.']) = pieces :=
      List.filter_eq_self.mpr fun s hs => decide_eq_true (hall s hs)
    have hne : path.toList ≠ [] := by
      intro hempty
      have hpiece : ([] : List Char) ∈ pieces := by
        rw [hpieces, hempty]
        exact List.mem_singleton_self _
      exact (hall [] hpiece).1 rfl
    simp only [str, hkept, List.nil_append, hjoin, if_neg hne]

end PurePosixPath

namespace OutputRequirements
variable {path : String}

theorem isAbsolute_of_head {c : Char} (h : path.toList.head? = some c) (hc : c ≠ '/') :
    PurePosixPath.isAbsolute path = false := by
  rw [PurePosixPath.isAbsolute, h]
  exact decide_eq_false fun he => hc (Option.some.inj he)

/-- Without a leading slash or backslash a drive is a letter before a colon. -/
theorem windowsDrive_iff (habsolute : PurePosixPath.isAbsolute path = false) (hback : '\\' ∉ path.toList) :
    windowsDrive path = true ↔ path.toList[1]? = some ':' := by
  unfold windowsDrive
  split
  · rename_i a b rest htext
    have hslash : a ≠ '/' := by
      rintro rfl
      simp [PurePosixPath.isAbsolute, htext] at habsolute
    have hbackslash : a ≠ '\\' := fun he => hback (by simp [htext, he])
    simp [htext, hslash, hbackslash]
  · rename_i hshort
    have hnone : path.toList[1]? = none := by
      cases htext : path.toList with
      | nil => rfl
      | cons a rest =>
        cases rest with
        | nil => rfl
        | cons b rest => exact absurd htext (hshort a b rest)
    simp [hnone]

/-- The checks of `from_list` leave the safe paths. -/
theorem not_refused_iff (hne : path ≠ "") : refused path = false ↔ SafePath path := by
  have hparts (habsolute : PurePosixPath.isAbsolute path = false) : (PurePosixPath.parse path).parts =
      (path.toList.splitOn '/').filter fun x => x ≠ [] ∧ x ≠ ['.'] := by
    rw [PurePosixPath.parse_relative habsolute]
    rfl
  constructor
  · intro h
    simp only [refused, Bool.or_eq_false_iff, decide_eq_false_iff_not, ne_eq, not_not, List.any_eq_false,
      decide_eq_true_eq, not_lt] at h
    obtain ⟨⟨⟨⟨⟨⟨habsolute, hdrive⟩, hdot⟩, hup⟩, hstr⟩, hwild⟩, hcontrol⟩ := h
    have hpieces := (PurePosixPath.str_eq_iff habsolute hdot).mp hstr
    rw [hparts habsolute] at hup
    refine ⟨⟨path.toList.splitOn '/', List.splitOn_ne_nil _ _, (List.intercalate_splitOn '/').symm, fun s hs => ?_⟩,
      fun c hc => ⟨hcontrol c hc, hwild c hc⟩, fun hcolon => ?_⟩
    · obtain ⟨hempty, hsingle⟩ := hpieces s hs
      refine ⟨hempty, hsingle, fun hdouble => hup ?_, notMem_of_mem_splitOn _ s hs⟩
      exact List.mem_filter.mpr ⟨hdouble ▸ hs, by decide⟩
    · have hback : '\\' ∉ path.toList := fun hmem => hwild _ hmem (by decide)
      rw [(windowsDrive_iff habsolute hback).mpr hcolon] at hdrive
      contradiction
  · rintro ⟨⟨segments, hsegments, hjoin, hsafe⟩, hchars, hcolon⟩
    have hsplit : path.toList.splitOn '/' = segments := by
      rw [hjoin]
      exact List.splitOn_intercalate '/' (fun s hs => (hsafe s hs).2.2.2) hsegments
    have habsolute : PurePosixPath.isAbsolute path = false := by
      cases segments with
      | nil => contradiction
      | cons s segments =>
        obtain ⟨hempty, -, -, hslash⟩ := hsafe s List.mem_cons_self
        cases s with
        | nil => contradiction
        | cons c s =>
          refine isAbsolute_of_head (c := c) ?_ fun he => hslash (he ▸ List.mem_cons_self)
          rw [hjoin]
          cases segments <;> rfl
    have hdot : path ≠ "." := by
      rintro rfl
      have hone : segments = [['.']] := by
        rw [← hsplit]
        decide
      exact (hsafe ['.'] (by simp [hone])).2.1 rfl
    have hpieces : ∀ s ∈ path.toList.splitOn '/', s ≠ [] ∧ s ≠ ['.'] := by
      intro s hs
      rw [hsplit] at hs
      exact ⟨(hsafe s hs).1, (hsafe s hs).2.1⟩
    have hup : ['.', '.'] ∉ (PurePosixPath.parse path).parts := by
      rw [hparts habsolute, hsplit]
      exact fun hmem => (hsafe _ (List.mem_of_mem_filter hmem)).2.2.1 rfl
    have hback : '\\' ∉ path.toList := fun hmem => (hchars _ hmem).2 (by decide)
    have hdrive : windowsDrive path = false := by
      by_contra h
      exact hcolon ((windowsDrive_iff habsolute hback).mp (Bool.eq_true_of_not_eq_false h))
    simp only [refused, Bool.or_eq_false_iff, decide_eq_false_iff_not, ne_eq, not_not, List.any_eq_false,
      decide_eq_true_eq, not_lt]
    exact ⟨⟨⟨⟨⟨⟨habsolute, hdrive⟩, hdot⟩, hup⟩, (PurePosixPath.str_eq_iff habsolute hdot).mpr hpieces⟩,
      fun c hc => (hchars c hc).2⟩, fun c hc => (hchars c hc).1⟩

theorem SafePath.ne_empty (h : SafePath path) : path ≠ "" := by
  rintro rfl
  obtain ⟨segments, hsegments, hjoin, hsafe⟩ := h.segments
  have hsplit : ("".toList).splitOn '/' = segments := by
    rw [hjoin]
    exact List.splitOn_intercalate '/' (fun s hs => (hsafe s hs).2.2.2) hsegments
  exact (hsafe [] (by simp [← hsplit])).1 rfl

theorem checkPath_ok_iff {value : Json} : checkPath value = .ok path ↔ value = .str path ∧ SafePath path := by
  constructor
  · intro h
    obtain rfl := checkPath_read h
    refine ⟨rfl, ?_⟩
    simp only [checkPath] at h
    split at h
    · contradiction
    · split at h
      · contradiction
      · rename_i hne hrefused
        exact (not_refused_iff hne).mp (Bool.eq_false_iff.mpr hrefused)
  · rintro ⟨rfl, hsafe⟩
    have hne := SafePath.ne_empty hsafe
    simp only [checkPath, if_neg hne, (not_refused_iff hne).mpr hsafe]
    rfl

theorem mapM_checkPath_iff {items : List Json} {paths : List String} :
    items.mapM checkPath = .ok paths ↔ items = paths.map .str ∧ ∀ path ∈ paths, SafePath path := by
  constructor
  · intro h
    induction items generalizing paths with
    | nil =>
      obtain rfl := Except.ok.inj h
      exact ⟨rfl, List.forall_mem_nil _⟩
    | cons item items ih =>
      obtain ⟨path, rest, hpath, hrest, rfl⟩ := mapM_cons_ok h
      obtain ⟨rfl, hsafe⟩ := checkPath_ok_iff.mp hpath
      obtain ⟨rfl, hall⟩ := ih hrest
      exact ⟨rfl, List.forall_mem_cons.mpr ⟨hsafe, hall⟩⟩
  · rintro ⟨rfl, hsafe⟩
    exact mapM_stored fun path hpath => checkPath_ok_iff.mpr ⟨rfl, hsafe path hpath⟩

theorem fromList_ok_iff {value : Json} {r : OutputRequirements} : fromList value = .ok r ↔
    ∃ paths : List String, value = .arr (paths.map .str) ∧ paths.Nodup ∧ (∀ path ∈ paths, SafePath path) ∧
      r = ⟨sorted paths⟩ := by
  constructor
  · intro h
    unfold fromList at h
    split at h
    · obtain ⟨paths, hpaths, h⟩ := bind_eq_ok.mp h
      split at h
      · contradiction
      · rename_i hnodup
        obtain rfl := Except.ok.inj h
        obtain ⟨rfl, hsafe⟩ := mapM_checkPath_iff.mp hpaths
        exact ⟨paths, rfl, not_not.mp hnodup, hsafe, rfl⟩
    · contradiction
  · rintro ⟨paths, rfl, hnodup, hsafe, rfl⟩
    exact bind_eq_ok.mpr ⟨paths, mapM_checkPath_iff.mpr ⟨rfl, hsafe⟩, if_neg (not_not.mpr hnodup)⟩

theorem mapM_error {α β : Type} {f : α → Except Raised β} {items : List α} {e : Raised}
    (h : items.mapM f = .error e) : ∃ a, f a = .error e := by
  induction items with
  | nil => contradiction
  | cons a items ih =>
    rw [List.mapM_cons] at h
    cases ha : f a with
    | error e' =>
      rw [ha] at h
      obtain rfl := Except.error.inj h
      exact ⟨a, ha⟩
    | ok b =>
      rw [ha] at h
      cases hrest : items.mapM f with
      | error e' =>
        rw [hrest] at h
        obtain rfl := Except.error.inj h
        exact ih hrest
      | ok rest =>
        rw [hrest] at h
        contradiction

theorem fromList_error {value : Json} {e : Raised} (h : fromList value = .error e) :
    ∃ message, e = .modelError message := by
  unfold fromList at h
  split at h
  · rename_i items
    cases hpaths : items.mapM checkPath with
    | error e' =>
      rw [hpaths] at h
      obtain rfl := Except.error.inj h
      obtain ⟨item, hitem⟩ := mapM_error hpaths
      unfold checkPath at hitem
      split at hitem
      · split at hitem
        · exact ⟨_, (Except.error.inj hitem).symm⟩
        · split at hitem
          · exact ⟨_, (Except.error.inj hitem).symm⟩
          · contradiction
      · exact ⟨_, (Except.error.inj hitem).symm⟩
    | ok paths =>
      rw [hpaths] at h
      change (if ¬ paths.Nodup then throw (Raised.modelError "Required output paths must be unique.")
        else pure ⟨sorted paths⟩ : Except Raised OutputRequirements) = .error e at h
      split at h
      · exact ⟨_, (Except.error.inj h).symm⟩
      · contradiction
  · exact ⟨_, (Except.error.inj h).symm⟩

/-- The order in which the files are required does not matter. -/
theorem sorted_perm {paths paths' : List String} (h : paths'.Perm paths) : sorted paths' = sorted paths := by
  have hperm : (sorted paths').Perm (sorted paths) :=
    ((List.perm_insertionSort _ paths').trans h).trans (List.perm_insertionSort _ paths).symm
  exact hperm.eq_of_pairwise' (List.pairwise_insertionSort (· ≤ ·) paths') (List.pairwise_insertionSort (· ≤ ·) paths)

/-- `from_list` accepts exactly the lists of distinct safe paths, and gives them sorted. -/
theorem fromList_accepts (value : Json) :
    ((∃ r, fromList value = .ok r) ↔
      ∃ paths : List String, value = .arr (paths.map .str) ∧ paths.Nodup ∧ ∀ path ∈ paths, SafePath path) ∧
    (∀ r, fromList value = .ok r → ∃ paths : List String, value = .arr (paths.map .str) ∧
      r.requiredFiles.Perm paths ∧ r.requiredFiles.Pairwise (· ≤ ·) ∧
      ∀ paths' : List String, paths'.Perm paths → fromList (.arr (paths'.map .str)) = .ok r) ∧
    ((¬ ∃ r, fromList value = .ok r) → ∃ message, fromList value = .error (.modelError message)) := by
  refine ⟨⟨fun ⟨r, hr⟩ => ?_, fun ⟨paths, hvalue, hnodup, hsafe⟩ => ?_⟩, fun r hr => ?_, fun hnone => ?_⟩
  · obtain ⟨paths, hvalue, hnodup, hsafe, -⟩ := fromList_ok_iff.mp hr
    exact ⟨paths, hvalue, hnodup, hsafe⟩
  · exact ⟨_, fromList_ok_iff.mpr ⟨paths, hvalue, hnodup, hsafe, rfl⟩⟩
  · obtain ⟨paths, hvalue, hnodup, hsafe, rfl⟩ := fromList_ok_iff.mp hr
    refine ⟨paths, hvalue, List.perm_insertionSort _ paths, List.pairwise_insertionSort (· ≤ ·) paths,
      fun paths' hperm => fromList_ok_iff.mpr ⟨paths', rfl, hperm.nodup_iff.mpr hnodup, fun path hpath => ?_, ?_⟩⟩
    · exact hsafe path (hperm.mem_iff.mp hpath)
    · rw [sorted_perm hperm]
  · cases h : fromList value with
    | ok r => exact absurd ⟨r, h⟩ hnone
    | error e =>
      obtain ⟨message, rfl⟩ := fromList_error h
      exact ⟨message, rfl⟩

example : OutputRequirements.refused "results/a.csv" = false ∧ OutputRequirements.refused "a//b" = true ∧
    OutputRequirements.refused "a/../b" = true ∧ OutputRequirements.refused "c:x" = true := by decide

end OutputRequirements
end Mic3
