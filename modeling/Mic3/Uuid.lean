import Mathlib.Data.List.TakeWhile
import Mathlib.Tactic.IntervalCases
import Mic3.Json

/-! UUIDs and their canonical text, the form in which run ids enter Job names, output prefixes,
record keys and payloads. -/
namespace Mic3

abbrev UUID := BitVec 128

instance : LawfulBEq UUID := instLawfulBEq

/-- `n` in `w` lowercase hexadecimal digits. -/
def hexText : ℕ → ℕ → List Char
  | 0, _ => []
  | w + 1, n => hexText w (n / 16) ++ [Json.hexDigit (n % 16)]

theorem hexDigit_injOn {m n : ℕ} (hm : m < 16) (hn : n < 16)
    (h : Json.hexDigit m = Json.hexDigit n) : m = n := by
  revert h
  interval_cases m <;> interval_cases n <;> decide

theorem hexDigit_ne_hyphen {n : ℕ} (hn : n < 16) : Json.hexDigit n ≠ '-' := by
  interval_cases n <;> decide

@[simp] theorem length_hexText (w n : ℕ) : (hexText w n).length = w := by
  induction w generalizing n with
  | zero => rfl
  | succ w ih => simp only [hexText, List.length_append, ih, List.length_singleton]

theorem hexText_injOn {w m n : ℕ} (hm : m < 16 ^ w) (hn : n < 16 ^ w)
    (h : hexText w m = hexText w n) : m = n := by
  induction w generalizing m n with
  | zero => omega
  | succ w ih =>
    have hsplit := List.append_inj' h rfl
    have hhigh : m / 16 = n / 16 := ih (by omega) (by omega) hsplit.1
    have hlow : m % 16 = n % 16 :=
      hexDigit_injOn (by omega) (by omega) (List.singleton_inj.mp hsplit.2)
    omega

theorem hyphen_notMem_hexText (w n : ℕ) : '-' ∉ hexText w n := by
  induction w generalizing n with
  | zero => simp [hexText]
  | succ w ih =>
    simp only [hexText, List.mem_append, List.mem_singleton, not_or]
    exact ⟨ih _, fun h => hexDigit_ne_hyphen (Nat.mod_lt _ (by decide)) h.symm⟩

/-- The value of a hexadecimal digit of either case. -/
def digitValue (c : Char) : Option ℕ :=
  if '0' ≤ c ∧ c ≤ '9' then some (c.toNat - 48)
  else if 'a' ≤ c ∧ c ≤ 'f' then some (c.toNat - 87)
  else if 'A' ≤ c ∧ c ≤ 'F' then some (c.toNat - 55)
  else none

def hexValue (digits : List Char) : Option ℕ :=
  digits.foldl (fun value c => value.bind fun n => (digitValue c).map (16 * n + ·)) (some 0)

theorem digitValue_hexDigit {n : ℕ} (hn : n < 16) : digitValue (Json.hexDigit n) = some n := by
  interval_cases n <;> decide

theorem hexValue_hexText {w n : ℕ} (hn : n < 16 ^ w) : hexValue (hexText w n) = some n := by
  induction w generalizing n with
  | zero => simpa [hexValue, hexText, eq_comm] using hn
  | succ w ih =>
    have hhigh : hexValue (hexText w (n / 16)) = some (n / 16) := ih (by omega)
    have hsum : 16 * (n / 16) + n % 16 = n := Nat.div_add_mod n 16
    simp only [hexValue] at hhigh ⊢
    simp only [hexText, List.foldl_append, hhigh, List.foldl_cons, List.foldl_nil, Option.bind_some,
      digitValue_hexDigit (Nat.mod_lt n (by decide)), Option.map_some, hsum]

theorem mem_hexText {c : Char} {w n : ℕ} (h : c ∈ hexText w n) : ∃ digit < 16, c = Json.hexDigit digit := by
  induction w generalizing n with
  | zero => exact absurd h List.not_mem_nil
  | succ w ih =>
    rcases List.mem_append.mp h with hhigh | hlow
    · exact ih hhigh
    · exact ⟨n % 16, Nat.mod_lt n (by decide), List.mem_singleton.mp hlow⟩

/-- `text.replace(old, "")`; the number counts the characters of a match that are still to be dropped. -/
def removeText (old : List Char) : ℕ → List Char → List Char
  | _, [] => []
  | n + 1, _ :: text => removeText old n text
  | 0, c :: text =>
    if old.isPrefixOf (c :: text) then removeText old (old.length - 1) text else c :: removeText old 0 text

/-- `text.strip(..)` of the characters that satisfy `p`. -/
def stripText (p : Char → Bool) (text : List Char) : List Char :=
  ((text.dropWhile p).reverse.dropWhile p).reverse

theorem removeText_of_notMem {old text : List Char} {c : Char} (hold : c ∈ old) (htext : c ∉ text) :
    removeText old 0 text = text := by
  induction text with
  | nil => rfl
  | cons d text ih =>
    have hother : ¬ old.isPrefixOf (d :: text) := fun hprefix =>
      htext ((List.isPrefixOf_iff_prefix.mp hprefix).subset hold)
    rw [removeText, if_neg hother, ih fun hmem => htext (List.mem_cons_of_mem _ hmem)]

theorem stripText_of_forall {p : Char → Bool} {text : List Char} (h : ∀ c ∈ text, p c = false) :
    stripText p text = text := by
  have hkeep {l : List Char} (hl : ∀ c ∈ l, p c = false) : l.dropWhile p = l := by
    refine List.dropWhile_eq_self_iff.mpr fun _ hp => ?_
    rw [hl _ (List.getElem_mem _)] at hp
    contradiction
  rw [stripText, hkeep h, hkeep fun c hc => h c (List.mem_reverse.mp hc), List.reverse_reverse]

/-- The zeros of the decimal digits; each begins a row of ten. -/
def decimalZeros : List ℕ :=
  [0x30, 0x660, 0x6f0, 0x7c0, 0x966, 0x9e6, 0xa66, 0xae6, 0xb66, 0xbe6, 0xc66, 0xce6, 0xd66, 0xde6, 0xe50,
   0xed0, 0xf20, 0x1040, 0x1090, 0x17e0, 0x1810, 0x1946, 0x19d0, 0x1a80, 0x1a90, 0x1b50, 0x1bb0, 0x1c40, 0x1c50,
   0xa620, 0xa8d0, 0xa900, 0xa9d0, 0xa9f0, 0xaa50, 0xabf0, 0xff10, 0x104a0, 0x10d30, 0x11066, 0x110f0, 0x11136,
   0x111d0, 0x112f0, 0x11450, 0x114d0, 0x11650, 0x116c0, 0x11730, 0x118e0, 0x11950, 0x11c50, 0x11d50, 0x11da0,
   0x11f50, 0x16a60, 0x16ac0, 0x16b50, 0x1d7ce, 0x1d7d8, 0x1d7e2, 0x1d7ec, 0x1d7f6, 0x1e140, 0x1e2f0, 0x1e4f0,
   0x1e950, 0x1fbf0]

/-- The characters other than ASCII that `int` reads as blanks. -/
def isWideSpace (n : ℕ) : Bool :=
  n = 0x85 || n = 0xa0 || n = 0x1680 || (0x2000 ≤ n && n ≤ 0x200a) || n = 0x2028 || n = 0x2029 || n = 0x202f ||
    n = 0x205f || n = 0x3000

/-- The ASCII character as which `int` reads a character. -/
def intChar (c : Char) : Char :=
  if c.toNat < 127 then c
  else if isWideSpace c.toNat then ' '
  else match decimalZeros.find? fun first => first ≤ c.toNat ∧ c.toNat < first + 10 with
    | some first => Json.hexDigit (c.toNat - first)
    | none => '?'

/-- `int(text, 16)` of a text without `-`: blanks around it, a `+`, a `0x`, and single `_` between the digits. -/
def int16 (text : List Char) : Option ℕ :=
  let text := stripText (fun c => (9 ≤ c.toNat && c.toNat ≤ 13) || c = ' ') (text.map intChar)
  let text := if text.head? = some '+' then text.tail else text
  let digits := match text with
    | '0' :: x :: digits =>
      if x = 'x' ∨ x = 'X' then if digits.head? = some '_' then digits.tail else digits else text
    | _ => text
  let groups := digits.splitOn '_'
  if groups.all (· ≠ []) then hexValue groups.flatten else none

theorem int16_of_forall {text : List Char} (hne : text ≠ [])
    (h : ∀ c ∈ text, ∃ digit < 16, c = Json.hexDigit digit) : int16 text = hexValue text := by
  have hall (P : Char → Prop) (hP : ∀ digit < 16, P (Json.hexDigit digit)) : ∀ c ∈ text, P c := by
    intro c hc
    obtain ⟨digit, hdigit, rfl⟩ := h c hc
    exact hP digit hdigit
  have hascii : text.map intChar = text := by
    rw [List.map_congr_left (hall (fun c => intChar c = c) (by decide)), List.map_id']
  have hstrip : stripText (fun c => (9 ≤ c.toNat && c.toNat ≤ 13) || c = ' ') text = text :=
    stripText_of_forall (hall _ (by decide))
  have hgroups : text.splitOn '_' = [text] :=
    List.splitOn_eq_singleton fun hmem => hall (· ≠ '_') (by decide) _ hmem rfl
  rw [int16, hascii, hstrip]
  cases text with
  | nil => contradiction
  | cons c digits =>
    have hplus : c ≠ '+' := hall (· ≠ '+') (by decide) c List.mem_cons_self
    have hprefixed : ∀ x rest, c :: digits = '0' :: x :: rest → ¬ (x = 'x' ∨ x = 'X') := by
      intro x rest he hx
      have hmem : x ∈ c :: digits := he ▸ List.mem_cons_of_mem _ List.mem_cons_self
      exact hall (fun c => ¬ (c = 'x' ∨ c = 'X')) (by decide) x hmem hx
    have hdigits : (match c :: digits with
        | '0' :: x :: digits' =>
          if x = 'x' ∨ x = 'X' then if digits'.head? = some '_' then digits'.tail else digits' else c :: digits
        | _ => c :: digits) = c :: digits := by
      split
      · rename_i x rest he
        rw [if_neg (hprefixed x rest he)]
      · rfl
    simp only [List.head?_cons, Option.some.injEq, hplus, if_false, hdigits, hgroups]
    simp

theorem int16_hexText {w n : ℕ} (hw : 0 < w) (hn : n < 16 ^ w) : int16 (hexText w n) = some n := by
  have hne : hexText w n ≠ [] := fun hnil => hw.ne' (by rw [← length_hexText w n, hnil, List.length_nil])
  rw [int16_of_forall hne fun c hc => mem_hexText hc, hexValue_hexText hn]

namespace UUID

/-- The text in groups of 8, 4, 4, 4 and 12 digits. -/
def chars (u : UUID) : List Char :=
  let h := hexText 32 u.toNat
  h.take 8 ++ '-' :: (h.drop 8).take 4 ++ '-' :: (h.drop 12).take 4 ++
    '-' :: (h.drop 16).take 4 ++ '-' :: h.drop 20

/-- `str(uuid)`. -/
def str (u : UUID) : String := String.ofList u.chars

theorem chars_without_hyphens (u : UUID) :
    u.chars.filter (· ≠ '-') = hexText 32 u.toNat := by
  have hkeep (l : List Char) (hl : ∀ c ∈ l, c ∈ hexText 32 u.toNat) :
      l.filter (· ≠ '-') = l := by
    apply List.filter_eq_self.mpr
    intro c hc
    simpa using fun he : c = '-' => hyphen_notMem_hexText 32 u.toNat (he ▸ hl c hc)
  set h := hexText 32 u.toNat with hh
  simp only [chars, ← hh, List.cons_append, List.append_assoc, List.filter_append, List.filter_cons]
  rw [hkeep _ fun c hc => List.mem_of_mem_take hc,
    hkeep _ fun c hc => List.mem_of_mem_drop (List.mem_of_mem_take hc),
    hkeep _ fun c hc => List.mem_of_mem_drop (List.mem_of_mem_take hc),
    hkeep _ fun c hc => List.mem_of_mem_drop (List.mem_of_mem_take hc),
    hkeep _ fun c hc => List.mem_of_mem_drop hc]
  simp only [ne_eq, not_true_eq_false, decide_false, Bool.false_eq_true, if_false]
  have hgroup (n m : ℕ) : (h.drop n).take m ++ h.drop (n + m) = h.drop n := by
    rw [← List.drop_drop, List.take_append_drop]
  rw [hgroup 16 4, hgroup 12 4, hgroup 8 4, List.take_append_drop]

theorem str_injective : Function.Injective str := by
  intro u v h
  have hc : u.chars = v.chars := String.ofList_injective h
  have hn : hexText 32 u.toNat = hexText 32 v.toNat := by
    rw [← chars_without_hyphens, hc, chars_without_hyphens]
  exact BitVec.eq_of_toNat_eq (hexText_injOn (by omega) (by omega) hn)

theorem colon_notMem_chars (u : UUID) : ':' ∉ u.chars := by
  intro hmem
  have hkept : ':' ∈ hexText 32 u.toNat := by
    rw [← chars_without_hyphens]
    exact List.mem_filter.mpr ⟨hmem, by decide⟩
  obtain ⟨n, hn, he⟩ := mem_hexText hkept
  revert he
  interval_cases n <;> decide

/-- `UUID(text)`. -/
def parse (text : String) : Option UUID :=
  let hex := removeText "uuid:".toList 0 (removeText "urn:".toList 0 text.toList)
  let hex := (stripText (fun c => c = '{' ∨ c = '}') hex).filter (· ≠ '-')
  if hex.length = 32 then (int16 hex).map (BitVec.ofNat 128) else none

theorem parse_str (u : UUID) : parse u.str = some u := by
  have hurn : removeText "urn:".toList 0 u.chars = u.chars := removeText_of_notMem (by decide) u.colon_notMem_chars
  have huuid : removeText "uuid:".toList 0 u.chars = u.chars := removeText_of_notMem (by decide) u.colon_notMem_chars
  have hstrip : stripText (fun c => c = '{' ∨ c = '}') u.chars = u.chars := by
    refine stripText_of_forall fun c hc => ?_
    by_cases hhyphen : c = '-'
    · subst hhyphen
      decide
    · have hkept : c ∈ hexText 32 u.toNat := by
        rw [← chars_without_hyphens]
        exact List.mem_filter.mpr ⟨hc, decide_eq_true hhyphen⟩
      obtain ⟨n, hn, rfl⟩ := mem_hexText hkept
      interval_cases n <;> decide
  have hvalue : int16 (hexText 32 u.toNat) = some u.toNat := int16_hexText (by decide) (by omega)
  simp only [parse, str, String.toList_ofList, hurn, huuid, hstrip, chars_without_hyphens, length_hexText, if_true,
    hvalue, Option.map_some, BitVec.ofNat_toNat, BitVec.setWidth_eq]

end UUID

example : UUID.str 0x0123456789abcdef0123456789abcdef#128 =
    "01234567-89ab-cdef-0123-456789abcdef" := by decide +kernel

example : UUID.parse "urn:uuid:\x7b0x_123456789ABCDEF0123456789abc-d\x7d" =
    some 0x123456789abcdef0123456789abcd#128 := by decide +kernel

end Mic3
