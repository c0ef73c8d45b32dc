import Mic3.Computation
import Mic3.JsonValues

/-! The canonical text of a JSON value, with sorted keys and without floats, tells its value. -/
namespace Mic3
open Encoding

namespace Json

section Ordered
variable (ensureAscii : Bool)

theorem dumpsFields_eq (sortKeys : Bool) (fields : List (String × Json)) :
    dumpsFields sortKeys ensureAscii fields = fields.map fun e => (e.1, dumps sortKeys ensureAscii e.2) := by
  induction fields with
  | nil => rfl
  | cons e fields ih => rw [dumpsFields, ih, List.map_cons]

mutual
/-- Sorting keys in the text is sorting them in the value. -/
theorem dumps_ordered : (v : Json) → dumps true ensureAscii v = dumps false ensureAscii v.ordered
  | .null | .bool true | .bool false | .int _ | .float _ | .str _ => rfl
  | .arr items => by rw [ordered, dumps, dumps, dumpsItems_ordered items]
  | .obj fields => by
    have hfields := dumpsFields_ordered fields
    have hsorted : ((dumpsFields true ensureAscii fields).insertionSort fun a b => a.1 ≤ b.1) =
        dumpsFields false ensureAscii ((orderedFields fields).insertionSort fun a b => a.1 ≤ b.1) := by
      rw [hfields, dumpsFields_eq, dumpsFields_eq]
      exact (List.map_insertionSort (fun a b : String × Json => a.1 ≤ b.1)
        (fun a b : String × List Char => a.1 ≤ b.1)
        (fun e => (e.1, dumps false ensureAscii e.2)) _ fun _ _ _ _ => Iff.rfl).symm
    simp only [dumps, ordered, hsorted, if_true, Bool.false_eq_true, if_false]

theorem dumpsItems_ordered : (items : List Json) →
    dumpsItems true ensureAscii items = dumpsItems false ensureAscii (orderedItems items)
  | [] => rfl
  | x :: xs => by rw [dumpsItems, orderedItems, dumpsItems, dumps_ordered x, dumpsItems_ordered xs]

theorem dumpsFields_ordered : (fields : List (String × Json)) →
    dumpsFields true ensureAscii fields = dumpsFields false ensureAscii (orderedFields fields)
  | [] => rfl
  | (k, x) :: xs => by rw [dumpsFields, orderedFields, dumpsFields, dumps_ordered x, dumpsFields_ordered xs]
end

end Ordered

/-- At most 4300 decimal digits. -/
@[irreducible] def Short (n : ℤ) : Prop := n.natAbs < 10 ^ 4300

mutual
/-- Strings, short integers, booleans, null, lists and dicts. -/
def Plain : Json → Prop
  | .float _ => False
  | .int n => Short n
  | .arr items => PlainItems items
  | .obj fields => PlainFields fields
  | _ => True

def PlainItems : List Json → Prop
  | [] => True
  | x :: xs => x.Plain ∧ PlainItems xs

def PlainFields : List (String × Json) → Prop
  | [] => True
  | (_, x) :: xs => x.Plain ∧ PlainFields xs
end

theorem plainFields_iff {fields : List (String × Json)} : PlainFields fields ↔ ∀ e ∈ fields, e.2.Plain := by
  induction fields with
  | nil => simp [PlainFields]
  | cons e fields ih => simp [PlainFields, ih]

mutual
theorem Plain.ordered : {v : Json} → v.Plain → v.ordered.Plain
  | .null, h | .bool _, h | .int _, h | .float _, h | .str _, h => h
  | .arr _, h => PlainItems.ordered h
  | .obj _, h => by
    refine plainFields_iff.mpr fun e he => ?_
    exact plainFields_iff.mp (PlainFields.ordered h) e ((List.mem_insertionSort _).mp he)

theorem PlainItems.ordered : {items : List Json} → PlainItems items → PlainItems (orderedItems items)
  | [], _ => trivial
  | _ :: _, h => ⟨h.1.ordered, PlainItems.ordered h.2⟩

theorem PlainFields.ordered : {fields : List (String × Json)} → PlainFields fields → PlainFields (orderedFields fields)
  | [], _ => trivial
  | (_, _) :: _, h => ⟨h.1.ordered, PlainFields.ordered h.2⟩
end

theorem Short.encodable {n : ℤ} (h : Short n) : (Json.int n).encodable = true := by
  rw [Short] at h
  rw [Json.encodable, numberEncodable]
  · exact decide_eq_true h
  all_goals exact fun _ he => by cases he

mutual
theorem Plain.encodable : {v : Json} → v.Plain → v.encodable = true
  | .null, _ | .bool _, _ | .str _, _ => rfl
  | .int _, h => Short.encodable h
  | .arr _, h => PlainItems.encodable h
  | .obj _, h => PlainFields.encodable h

theorem PlainItems.encodable : {items : List Json} → PlainItems items → encodableItems items = true
  | [], _ => rfl
  | _ :: _, h => Bool.and_eq_true_iff.mpr ⟨h.1.encodable, PlainItems.encodable h.2⟩

theorem PlainFields.encodable : {fields : List (String × Json)} → PlainFields fields → encodableFields fields = true
  | [], _ => rfl
  | (_, _) :: _, h => Bool.and_eq_true_iff.mpr ⟨h.1.encodable, PlainFields.encodable h.2⟩
end

section Integers

def digitOrSign (c : Char) : Bool := c.isDigit || c = '-'

theorem int_chars (n : ℤ) : ∀ c ∈ (toString n).toList, digitOrSign c = true := by
  have hnat (n : ℕ) : ∀ c ∈ (toString n).toList, digitOrSign c = true := by
    intro c hc
    have hdigit : c ∈ Nat.toDigits 10 n := by rwa [Nat.toString_eq_ofList_toDigits, String.toList_ofList] at hc
    rw [digitOrSign, Nat.isDigit_of_mem_toDigits (by decide) (by decide) hdigit, Bool.true_or]
  cases n with
  | ofNat n => exact hnat n
  | negSucc n =>
    intro c hc
    have htext : (toString (Int.negSucc n)).toList = '-' :: (toString (n + 1)).toList := by
      rw [show toString (Int.negSucc n) = "-" ++ toString (n + 1) from rfl, String.toList_append]
      rfl
    rw [htext] at hc
    rcases List.mem_cons.mp hc with rfl | hc
    · decide
    · exact hnat _ c hc

theorem int_ne_nil (n : ℤ) : (toString n).toList ≠ [] := by
  have hnat (n : ℕ) : (toString n).toList ≠ [] := by
    rw [Nat.toString_eq_ofList_toDigits, String.toList_ofList]
    exact Nat.toDigits_ne_nil
  cases n with
  | ofNat n => exact hnat n
  | negSucc n =>
    rw [show toString (Int.negSucc n) = "-" ++ toString (n + 1) from rfl, String.toList_append]
    exact List.append_ne_nil_of_left_ne_nil (by decide) _

theorem nat_toString_injective {m n : ℕ} (h : (toString m).toList = (toString n).toList) : m = n := by
  rw [Nat.toString_eq_ofList_toDigits, Nat.toString_eq_ofList_toDigits, String.toList_ofList, String.toList_ofList] at h
  rw [← Nat.ofDigitChars_ten_toDigits (n := m), h, Nat.ofDigitChars_ten_toDigits]

theorem int_toString_injective {m n : ℤ} (h : (toString m).toList = (toString n).toList) : m = n := by
  have hneg (k : ℕ) : (toString (Int.negSucc k)).toList = '-' :: (toString (k + 1)).toList := by
    rw [show toString (Int.negSucc k) = "-" ++ toString (k + 1) from rfl, String.toList_append]
    rfl
  have hsign (k : ℕ) : '-' ∉ (toString k).toList := by
    intro hmem
    rw [Nat.toString_eq_ofList_toDigits, String.toList_ofList] at hmem
    have hdigit := Nat.isDigit_of_mem_toDigits (by decide) (by decide) hmem
    exact absurd hdigit (by decide)
  cases m with
  | ofNat m =>
    cases n with
    | ofNat n => exact congrArg Int.ofNat (nat_toString_injective h)
    | negSucc n =>
      rw [hneg] at h
      have hmem : '-' ∈ (toString m).toList := by
        rw [show (toString m).toList = (toString (Int.ofNat m)).toList from rfl, h]
        exact List.mem_cons_self
      exact absurd hmem (hsign m)
  | negSucc m =>
    rw [hneg] at h
    cases n with
    | ofNat n =>
      have hmem : '-' ∈ (toString n).toList := by
        rw [show (toString n).toList = (toString (Int.ofNat n)).toList from rfl, ← h]
        exact List.mem_cons_self
      exact absurd hmem (hsign n)
    | negSucc n =>
      rw [hneg] at h
      have hsucc := nat_toString_injective (List.cons.inj h).2
      rw [Nat.succ.inj hsucc]

end Integers

section Decoding

/-- A value is followed by the end of the text or of what it stands in. -/
def Ends (r : List Char) : Prop := ∀ c ∈ r.head?, c = ',' ∨ c = '}' ∨ c = ']'

theorem Ends.nil : Ends [] := fun _ h => absurd h (Option.not_mem_none _)

theorem Ends.cons {c : Char} (h : c = ',' ∨ c = '}' ∨ c = ']') (r : List Char) : Ends (c :: r) := by
  intro d hd
  obtain rfl : c = d := Option.some.inj hd
  exact h

theorem Ends.not_digitOrSign {r : List Char} (h : Ends r) : ∀ c ∈ r.head?, digitOrSign c = false := by
  intro c hc
  rcases h c hc with rfl | rfl | rfl <;> decide

/-- What follows an item: the other items and the bracket. -/
def itemsEnd (items : List Json) : List Char :=
  items.flatMap (fun x => ',' :: dumps false false x) ++ [']']

def fieldText (e : String × Json) : List Char := member false (e.1, dumps false false e.2)

def fieldsEnd (fields : List (String × Json)) : List Char :=
  fields.flatMap (fun e => ',' :: fieldText e) ++ ['}']

theorem itemsEnd_ends (items : List Json) (r : List Char) : Ends (itemsEnd items ++ r) := by
  cases items with
  | nil => exact .cons (.inr (.inr rfl)) r
  | cons x xs => exact .cons (.inl rfl) _

theorem fieldsEnd_ends (fields : List (String × Json)) (r : List Char) : Ends (fieldsEnd fields ++ r) := by
  cases fields with
  | nil => exact .cons (.inr (.inl rfl)) r
  | cons e es => exact .cons (.inl rfl) _

theorem dumpsItems_eq (items : List Json) : dumpsItems false false items = items.map (dumps false false) := by
  induction items with
  | nil => rfl
  | cons x xs ih => rw [dumpsItems, ih, List.map_cons]

theorem dumps_arr_nil : dumps false false (.arr []) = ['[', ']'] := rfl

theorem dumps_obj_nil : dumps false false (.obj []) = ['{', '}'] := rfl

theorem dumps_arr_cons (x : Json) (xs : List Json) :
    dumps false false (.arr (x :: xs)) = '[' :: (dumps false false x ++ itemsEnd xs) := by
  rw [dumps, dumpsItems_eq]
  exact congrArg ('[' :: ·) (SelfDelimiting.separated_cons (dumps false false) ',' ']' x xs)

theorem dumps_obj_cons (e : String × Json) (es : List (String × Json)) :
    dumps false false (.obj (e :: es)) = '{' :: (fieldText e ++ fieldsEnd es) := by
  have hmembers : (dumpsFields false false (e :: es)).map (member false) = (e :: es).map fieldText := by
    rw [dumpsFields_eq, List.map_map]
    rfl
  simp only [dumps, Bool.false_eq_true, if_false, hmembers]
  exact congrArg ('{' :: ·) (SelfDelimiting.separated_cons fieldText ',' '}' e es)

/-- The kinds of values that the first character of the text tells apart. -/
inductive Kind where
  | null | yes | no | number | str | arr | obj | other
  deriving DecidableEq

def kind : Json → Kind
  | .null => .null
  | .bool true => .yes
  | .bool false => .no
  | .int _ | .float _ => .number
  | .str _ => .str
  | .arr _ => .arr
  | .obj _ => .obj

def kindOf (c : Char) : Kind :=
  if digitOrSign c then .number
  else if c = 'n' then .null
  else if c = 't' then .yes
  else if c = 'f' then .no
  else if c = '"' then .str
  else if c = '[' then .arr
  else if c = '{' then .obj
  else .other

theorem kindOf_head {v : Json} (h : v.Plain) (r : List Char) :
    (dumps false false v ++ r).head?.map kindOf = some v.kind := by
  cases v with
  | int n =>
    obtain ⟨c, cs, htext⟩ := List.exists_cons_of_ne_nil (int_ne_nil n)
    have hc : digitOrSign c = true := int_chars n c (htext ▸ List.mem_cons_self)
    rw [dumps, htext, List.cons_append, List.head?_cons, Option.map_some, kindOf, if_pos hc, kind]
  | bool b => cases b <;> rfl
  | null => rfl
  | float repr => exact h.elim
  | str | arr | obj => rfl

theorem int_unique {m n : ℤ} {r s : List Char} (hr : Ends r) (hs : Ends s)
    (h : (toString m).toList ++ r = (toString n).toList ++ s) : m = n ∧ r = s := by
  have hread (k : ℤ) {t : List Char} (ht : Ends t) :
      ((toString k).toList ++ t).takeWhile digitOrSign = (toString k).toList := by
    rw [List.takeWhile_append_of_pos (int_chars k)]
    cases t with
    | nil => rw [List.takeWhile_nil, List.append_nil]
    | cons c t =>
      rw [List.takeWhile_cons_of_neg (by rw [ht.not_digitOrSign c rfl]; decide), List.append_nil]
  have htext : (toString m).toList = (toString n).toList := by rw [← hread m hr, h, hread n hs]
  rw [htext] at h
  exact ⟨int_toString_injective htext, List.append_cancel_left h⟩

theorem kind_ne_other (v : Json) : v.kind ≠ .other := by
  cases v with
  | bool b => cases b <;> decide
  | null | int | float | str | arr | obj => exact Kind.noConfusion

/-- No value starts like the end of a list. -/
theorem Plain.head_ne {v : Json} (h : v.Plain) (r s : List Char) : dumps false false v ++ r ≠ ']' :: s := by
  intro heq
  have hkind := kindOf_head h r
  rw [heq, List.head?_cons, Option.map_some, show kindOf ']' = .other from by decide] at hkind
  exact v.kind_ne_other (Option.some.inj hkind).symm

theorem fieldText_ne (e : String × Json) (r s : List Char) : fieldText e ++ r ≠ '}' :: s := by
  intro heq
  exact absurd (List.cons.inj heq).1 (by decide)

mutual
/-- Whatever follows a value, the text tells the value and its end. -/
theorem dumps_unique : (v w : Json) → v.Plain → w.Plain → ∀ {r s}, Ends r → Ends s →
    dumps false false v ++ r = dumps false false w ++ s → v = w ∧ r = s := by
  intro v w hv hw r s hr hs h
  -- The first character tells the kind.
  have hkind : v.kind = w.kind := by
    have hhead := kindOf_head hv r
    rw [h, kindOf_head hw s] at hhead
    exact (Option.some.inj hhead).symm
  match v, w, hkind with
  | .null, .null, _ => exact ⟨rfl, List.append_cancel_left h⟩
  | .bool true, .bool true, _ => exact ⟨rfl, List.append_cancel_left h⟩
  | .bool false, .bool false, _ => exact ⟨rfl, List.append_cancel_left h⟩
  | .int m, .int n, _ =>
    obtain ⟨rfl, hrest⟩ := int_unique hr hs h
    exact ⟨rfl, hrest⟩
  | .str a, .str b, _ =>
    obtain ⟨rfl, hrest⟩ := quote_delimits a b r s h
    exact ⟨rfl, hrest⟩
  | .arr [], .arr [], _ => exact ⟨rfl, List.append_cancel_left h⟩
  | .arr [], .arr (y :: ys), _ =>
    rw [dumps_arr_nil, dumps_arr_cons] at h
    have hfirst : dumps false false y ++ (itemsEnd ys ++ s) = ']' :: r := by
      simpa only [List.cons_append, List.nil_append, List.append_assoc, List.cons.injEq, true_and] using h.symm
    exact absurd hfirst (hw.1.head_ne _ _)
  | .arr (x :: xs), .arr [], _ =>
    rw [dumps_arr_nil, dumps_arr_cons] at h
    have hfirst : dumps false false x ++ (itemsEnd xs ++ r) = ']' :: s := by
      simpa only [List.cons_append, List.nil_append, List.append_assoc, List.cons.injEq, true_and] using h
    exact absurd hfirst (hv.1.head_ne _ _)
  | .arr (x :: xs), .arr (y :: ys), _ =>
    rw [dumps_arr_cons, dumps_arr_cons] at h
    have hsplit : dumps false false x ++ (itemsEnd xs ++ r) = dumps false false y ++ (itemsEnd ys ++ s) := by
      simpa only [List.cons_append, List.append_assoc, List.cons.injEq, true_and] using h
    obtain ⟨rfl, hrest⟩ := dumps_unique x y hv.1 hw.1 (itemsEnd_ends _ _) (itemsEnd_ends _ _) hsplit
    obtain ⟨rfl, hrs⟩ := itemsEnd_unique xs ys hv.2 hw.2 hrest
    exact ⟨rfl, hrs⟩
  | .obj [], .obj [], _ => exact ⟨rfl, List.append_cancel_left h⟩
  | .obj [], .obj (e :: es), _ =>
    rw [dumps_obj_nil, dumps_obj_cons] at h
    have hfirst : fieldText e ++ (fieldsEnd es ++ s) = '}' :: r := by
      simpa only [List.cons_append, List.nil_append, List.append_assoc, List.cons.injEq, true_and] using h.symm
    exact absurd hfirst (fieldText_ne e _ _)
  | .obj (e :: es), .obj [], _ =>
    rw [dumps_obj_nil, dumps_obj_cons] at h
    have hfirst : fieldText e ++ (fieldsEnd es ++ r) = '}' :: s := by
      simpa only [List.cons_append, List.nil_append, List.append_assoc, List.cons.injEq, true_and] using h
    exact absurd hfirst (fieldText_ne e _ _)
  | .obj ((k, x) :: es), .obj ((l, y) :: es'), _ =>
    rw [dumps_obj_cons, dumps_obj_cons] at h
    have hsplit : quote false k ++ (':' :: (dumps false false x ++ (fieldsEnd es ++ r))) =
        quote false l ++ (':' :: (dumps false false y ++ (fieldsEnd es' ++ s))) := by
      simpa only [fieldText, member, List.cons_append, List.append_assoc, List.cons.injEq, true_and] using h
    obtain ⟨rfl, hvalue⟩ := quote_delimits _ _ _ _ hsplit
    obtain ⟨rfl, hrest⟩ := dumps_unique x y hv.1 hw.1 (fieldsEnd_ends _ _) (fieldsEnd_ends _ _)
      (List.cons.inj hvalue).2
    obtain ⟨rfl, hrs⟩ := fieldsEnd_unique es es' hv.2 hw.2 hrest
    exact ⟨rfl, hrs⟩

theorem itemsEnd_unique : (xs ys : List Json) → PlainItems xs → PlainItems ys → ∀ {r s},
    itemsEnd xs ++ r = itemsEnd ys ++ s → xs = ys ∧ r = s
  | [], [], _, _, _, _, h => ⟨rfl, List.append_cancel_left h⟩
  | [], _ :: _, _, _, _, _, h => absurd (List.cons.inj h).1 (by decide)
  | _ :: _, [], _, _, _, _, h => absurd (List.cons.inj h).1 (by decide)
  | x :: xs, y :: ys, hx, hy, r, s, h => by
    have hsplit : dumps false false x ++ (itemsEnd xs ++ r) = dumps false false y ++ (itemsEnd ys ++ s) := by
      simpa only [itemsEnd, List.flatMap_cons, List.cons_append, List.append_assoc, List.cons.injEq,
        true_and] using h
    obtain ⟨rfl, hrest⟩ := dumps_unique x y hx.1 hy.1 (itemsEnd_ends _ _) (itemsEnd_ends _ _) hsplit
    obtain ⟨rfl, hrs⟩ := itemsEnd_unique xs ys hx.2 hy.2 hrest
    exact ⟨rfl, hrs⟩

theorem fieldsEnd_unique : (es es' : List (String × Json)) → PlainFields es → PlainFields es' → ∀ {r s},
    fieldsEnd es ++ r = fieldsEnd es' ++ s → es = es' ∧ r = s
  | [], [], _, _, _, _, h => ⟨rfl, List.append_cancel_left h⟩
  | [], _ :: _, _, _, _, _, h => absurd (List.cons.inj h).1 (by decide)
  | _ :: _, [], _, _, _, _, h => absurd (List.cons.inj h).1 (by decide)
  | (k, x) :: es, (l, y) :: es', he, he', r, s, h => by
    have hsplit : quote false k ++ (':' :: (dumps false false x ++ (fieldsEnd es ++ r))) =
        quote false l ++ (':' :: (dumps false false y ++ (fieldsEnd es' ++ s))) := by
      simpa only [fieldsEnd, fieldText, member, List.flatMap_cons, List.cons_append, List.append_assoc,
        List.cons.injEq, true_and] using h
    obtain ⟨rfl, hvalue⟩ := quote_delimits _ _ _ _ hsplit
    obtain ⟨rfl, hrest⟩ := dumps_unique x y he.1 he'.1 (fieldsEnd_ends _ _) (fieldsEnd_ends _ _)
      (List.cons.inj hvalue).2
    obtain ⟨rfl, hrs⟩ := fieldsEnd_unique es es' he.2 he'.2 hrest
    exact ⟨rfl, hrs⟩
end

/-- The canonical text tells a value up to the order of keys. -/
theorem canonicalText_iff {v w : Json} (hv : v.Plain) (hw : w.Plain) :
    dumps true false v = dumps true false w ↔ v.Same w := by
  rw [dumps_ordered, dumps_ordered, Same]
  constructor
  · intro h
    exact (dumps_unique v.ordered w.ordered hv.ordered hw.ordered .nil .nil (congrArg (· ++ []) h)).1
  · exact congrArg (dumps false false)

end Decoding
end Json
end Mic3
