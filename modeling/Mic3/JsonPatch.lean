import Mic3.Versions

/-! JSON Pointers (RFC 6901) and the `test` and `remove` operations of JSON Patch (RFC 6902), as an API server
applies them to a document. -/
namespace Mic3
namespace Json

/-- A reference token read back; `~` stands before 0 or 1 only. -/
def unescapeToken : List Char → Option (List Char)
  | [] => some []
  | '~' :: '0' :: cs => (unescapeToken cs).map ('~' :: ·)
  | '~' :: '1' :: cs => (unescapeToken cs).map ('/' :: ·)
  | '~' :: _ => none
  | c :: cs => (unescapeToken cs).map (c :: ·)

/-- The reference tokens of a pointer. -/
def pointer (text : String) : Option (List String) :=
  match text.toList with
  | [] => some []
  | '/' :: cs => (cs.splitOn '/').mapM fun token => (unescapeToken token).map String.ofList
  | _ => none

/-- The index of a list that a token stands for. -/
def arrayIndex (token : String) : Option ℕ :=
  if decimal.fullmatch token.toList then some (Nat.ofDigitChars 10 token.toList 0) else none

/-- The value at a location. -/
def locate : List String → Json → Option Json
  | [], v => some v
  | token :: path, .obj fields => (fields.lookup token).bind (locate path)
  | token :: path, .arr items => (arrayIndex token).bind fun i => items[i]?.bind (locate path)
  | _ :: _, _ => none

/-- The value of an entry is replaced, where there is one. -/
def updateField (key : String) (f : Json → Option Json) : List (String × Json) → Option (List (String × Json))
  | [] => none
  | e :: fields => if e.1 = key then (f e.2).map fun v => (e.1, v) :: fields
    else (updateField key f fields).map (e :: ·)

/-- The value of a member or an item is replaced, where there is one. -/
def updateChild (token : String) (f : Json → Option Json) : Json → Option Json
  | .obj fields => (updateField token f fields).map .obj
  | .arr items => (arrayIndex token).bind fun i => items[i]?.bind fun v => (f v).map fun v' => .arr (items.set i v')
  | _ => none

/-- The value at a location is replaced. -/
def updateAt (path : List String) (f : Json → Option Json) : Json → Option Json :=
  path.foldr updateChild f

/-- A member or an item that is there is removed. -/
def removeChild (token : String) : Json → Option Json
  | .obj fields => if fields.any (·.1 = token) then some (.obj (fields.filter (·.1 ≠ token))) else none
  | .arr items => (arrayIndex token).bind fun i => if i < items.length then some (.arr (items.eraseIdx i)) else none
  | _ => none

def removeAt (path : List String) (v : Json) : Option Json :=
  path.getLast?.bind fun token => updateAt path.dropLast (removeChild token) v

/-- The document after an operation, if it succeeds. -/
def applyOperation (v operation : Json) : Option Json :=
  match operation.get? "op", operation.get? "path" with
  | some (.str "test"), some (.str path) => (pointer path).bind fun path => (locate path v).bind fun found =>
    if (operation.get? "value").any found.Same then some v else none
  | some (.str "remove"), some (.str path) => (pointer path).bind fun path => removeAt path v
  | _, _ => none

/-- The operations one after the other; where one fails, the patch does. -/
def applyPatch (patch : List Json) (v : Json) : Option Json := patch.foldlM applyOperation v

variable {f g : Json → Option Json} {v v' w : Json} {fields : List (String × Json)} {items : List Json} {token : String}
  {path : List String} {cs : List Char}

section Pointers

/-- `text.replace(c, replacement)`. -/
def replace (c : Char) (replacement : List Char) (text : List Char) : List Char :=
  text.flatMap fun d => if d = c then replacement else [d]

/-- `token.replace('~', '~0').replace('/', '~1')`. -/
def escapeToken (token : List Char) : List Char := replace '/' ['~', '1'] (replace '~' ['~', '0'] token)

theorem escapeToken_cons {c : Char} : escapeToken (c :: cs) =
    (if c = '~' then ['~', '0'] else if c = '/' then ['~', '1'] else [c]) ++ escapeToken cs := by
  by_cases htilde : c = '~'
  · subst htilde
    rfl
  · by_cases hslash : c = '/'
    · subst hslash
      rfl
    · simp only [escapeToken, replace, List.flatMap_cons, if_neg htilde, if_neg hslash, List.singleton_append]

theorem unescapeToken_cons {c : Char} (hc : c ≠ '~') : unescapeToken (c :: cs) = (unescapeToken cs).map (c :: ·) := by
  rw [unescapeToken]
  · exact fun _ h => absurd h hc
  · exact fun _ h => absurd h hc
  · exact hc

/-- What is escaped is read back. -/
theorem unescapeToken_escapeToken : unescapeToken (escapeToken cs) = some cs := by
  induction cs with
  | nil => rfl
  | cons c cs ih =>
    rw [escapeToken_cons]
    by_cases htilde : c = '~'
    · subst htilde
      simp [unescapeToken, ih]
    · by_cases hslash : c = '/'
      · subst hslash
        simp [unescapeToken, ih]
      · rw [if_neg htilde, if_neg hslash, List.singleton_append, unescapeToken_cons htilde, ih, Option.map_some]

theorem escapeToken_plain (h : ∀ c ∈ cs, c ≠ '~' ∧ c ≠ '/') : escapeToken cs = cs := by
  induction cs with
  | nil => rfl
  | cons c cs ih =>
    obtain ⟨htilde, hslash⟩ := h c List.mem_cons_self
    rw [escapeToken_cons, if_neg htilde, if_neg hslash, ih fun d hd => h d (List.mem_cons_of_mem _ hd)]
    rfl

theorem escapeToken_noSlash : '/' ∉ escapeToken cs := by
  induction cs with
  | nil => exact List.not_mem_nil
  | cons c cs ih =>
    rw [escapeToken_cons, List.mem_append]
    rintro (h | h)
    · split at h
      · simp at h
      · split at h
        · simp at h
        · next hslash => exact hslash (List.mem_singleton.mp h).symm
    · exact ih h

/-- A pointer is read as the tokens it was written from. -/
theorem pointer_tokens {text : String} {tokens : List String}
    (htext : text.toList = '/' :: ['/'].intercalate (tokens.map fun token => escapeToken token.toList))
    (hne : tokens ≠ []) : pointer text = some tokens := by
  have hsplit : (['/'].intercalate (tokens.map fun token => escapeToken token.toList)).splitOn '/' =
      tokens.map fun token => escapeToken token.toList := by
    refine List.splitOn_intercalate '/' ?_ (mt List.map_eq_nil_iff.mp hne)
    exact List.forall_mem_map.mpr fun _ _ => escapeToken_noSlash
  have hread (tokens : List String) : (tokens.map fun token => escapeToken token.toList).mapM
      (fun token => (unescapeToken token).map String.ofList) = some tokens := by
    induction tokens with
    | nil => rfl
    | cons token tokens ih =>
      rw [List.map_cons, List.mapM_cons, unescapeToken_escapeToken, ih]
      simp
  rw [pointer, htext]
  exact (congrArg _ hsplit).trans (hread tokens)

theorem toList_toString (n : ℕ) : (toString n).toList = Nat.toDigits 10 n := by
  rw [Nat.toString_eq_ofList_toDigits, String.toList_ofList]

theorem escapeToken_toString (n : ℕ) : escapeToken (toString n).toList = (toString n).toList := by
  refine escapeToken_plain fun c hc => ?_
  have hdigit : digit c = true := digit_of_mem_toDigits (toList_toString n ▸ hc)
  exact ⟨fun h => absurd (h ▸ hdigit) (by decide), fun h => absurd (h ▸ hdigit) (by decide)⟩

theorem arrayIndex_toString (n : ℕ) : arrayIndex (toString n) = some n := by
  have hdecimal : decimal.fullmatch (toString n).toList = true := decimal_iff.mpr ⟨n, toList_toString n⟩
  rw [arrayIndex, if_pos hdecimal, toList_toString, Nat.ofDigitChars_ten_toDigits]

end Pointers

section Updates

/-- Two updates of one entry are one. -/
theorem updateField_bind {key : String} : (updateField key f fields).bind (updateField key g) =
    updateField key (fun v => (f v).bind g) fields := by
  induction fields with
  | nil => rfl
  | cons e fields ih =>
    rw [updateField, updateField]
    split
    · next hkey => cases f e.2 <;> simp [updateField, hkey]
    · next hkey =>
      rw [← ih]
      cases updateField key f fields <;> simp [updateField, hkey]

theorem updateChild_bind : (updateChild token f v).bind (updateChild token g) =
    updateChild token (fun v => (f v).bind g) v := by
  cases v with
  | obj fields =>
    rw [updateChild, updateChild, ← updateField_bind]
    cases updateField token f fields <;> rfl
  | arr items =>
    simp only [updateChild]
    cases hindex : arrayIndex token with
    | none => rfl
    | some i =>
      simp only [Option.bind_some]
      cases hitem : items[i]? with
      | none => rfl
      | some x =>
        simp only [Option.bind_some]
        cases hfx : f x with
        | none => rfl
        | some y =>
          have hlt : i < items.length := (List.getElem?_eq_some_iff.mp hitem).1
          simp [updateChild, hindex, hlt]
  | _ => rfl

theorem updateAt_bind : (updateAt path f v).bind (updateAt path g) = updateAt path (fun v => (f v).bind g) v := by
  induction path generalizing v with
  | nil => rfl
  | cons token path ih =>
    have hsame : (fun v => (updateAt path f v).bind (updateAt path g)) = updateAt path fun v => (f v).bind g :=
      funext fun v => ih
    exact updateChild_bind.trans (congrArg (updateChild token · v) hsame)

theorem updateAt_append {path' : List String} : updateAt (path ++ path') f = updateAt path (updateAt path' f) :=
  List.foldr_append

theorem removeAt_append : removeAt (path ++ [token]) v = updateAt path (removeChild token) v := by
  rw [removeAt, List.getLast?_concat, Option.bind_some, List.dropLast_concat]

/-- A series of removals below one location is one update there. -/
theorem removals_at {tokens : List String} (hne : tokens ≠ []) :
    tokens.foldlM (fun v token => removeAt (path ++ [token]) v) v =
      updateAt path (fun v => tokens.foldlM (fun v token => removeChild token v) v) v := by
  induction tokens generalizing v with
  | nil => exact absurd rfl hne
  | cons token tokens ih =>
    rw [List.foldlM_cons, removeAt_append]
    cases tokens with
    | nil =>
      have hsingle : (fun v => [token].foldlM (fun v token => removeChild token v) v) = removeChild token :=
        funext fun v => bind_pure _
      rw [hsingle]
      exact bind_pure _
    | cons next tokens =>
      have hrest : (fun v => (next :: tokens).foldlM (fun v token => removeAt (path ++ [token]) v) v) =
          updateAt path fun v => (next :: tokens).foldlM (fun v token => removeChild token v) v :=
        funext fun v => ih (List.cons_ne_nil _ _)
      calc (updateAt path (removeChild token) v).bind
            (fun v => (next :: tokens).foldlM (fun v token => removeAt (path ++ [token]) v) v)
        _ = (updateAt path (removeChild token) v).bind
            (updateAt path fun v => (next :: tokens).foldlM (fun v token => removeChild token v) v) := by rw [hrest]
        _ = updateAt path (fun v => (removeChild token v).bind
            fun v => (next :: tokens).foldlM (fun v token => removeChild token v) v) v := updateAt_bind

/-- Distinct members that are there can all be removed. -/
theorem removeChildren {tokens : List String} (hn : tokens.Nodup) (h : ∀ token ∈ tokens, token ∈ fields.map Prod.fst) :
    tokens.foldlM (fun v token => removeChild token v) (.obj fields) =
      some (.obj (fields.filter fun e => e.1 ∉ tokens)) := by
  induction tokens generalizing fields with
  | nil => simp
  | cons token tokens ih =>
    obtain ⟨hfresh, hrest⟩ := List.nodup_cons.mp hn
    have hfound : fields.any (fun e => e.1 = token) = true := by
      obtain ⟨e, he, hkey⟩ := List.mem_map.mp (h token List.mem_cons_self)
      exact List.any_eq_true.mpr ⟨e, he, decide_eq_true hkey⟩
    have hremain : ∀ t ∈ tokens, t ∈ (fields.filter fun e => e.1 ≠ token).map Prod.fst := by
      intro t ht
      obtain ⟨e, he, rfl⟩ := List.mem_map.mp (h t (List.mem_cons_of_mem _ ht))
      have hne : e.1 ≠ token := fun heq => hfresh (heq ▸ ht)
      exact List.mem_map_of_mem (List.mem_filter.mpr ⟨he, decide_eq_true hne⟩)
    have hfilter : (fields.filter fun e => e.1 ≠ token).filter (fun e => e.1 ∉ tokens) =
        fields.filter fun e => e.1 ∉ token :: tokens := by
      rw [List.filter_filter]
      refine List.filter_congr fun e _ => ?_
      simp [not_or, Bool.and_comm]
    rw [List.foldlM_cons, removeChild, if_pos hfound]
    exact (ih hrest hremain).trans (congrArg (some ∘ Json.obj) hfilter)

end Updates

end Json
end Mic3
