import Mathlib.Data.List.Lex
import Mic3.Lib.Regex
import Mic3.Python

/-! Release versions: dotted triples of decimal numbers without leading zeros, which are compared as numbers. -/
namespace Mic3
open Regex

/-- A character of `[0-9]`. -/
def digit (c : Char) : Bool := '0' ≤ c && c ≤ '9'

/-- `0|[1-9][0-9]*`. -/
def decimal : Regex Char :=
  .alt (.cls (· = '0')) (.seq (.cls fun c => '1' ≤ c && c ≤ '9') (.star (.cls digit)))

/-- `(0|[1-9][0-9]*)\.(0|[1-9][0-9]*)\.(0|[1-9][0-9]*)`. -/
def dotted : Regex Char :=
  .seq decimal (.seq (.cls (· = '.')) (.seq decimal (.seq (.cls (· = '.')) decimal)))

section Decimals
variable {n : ℕ} {c : Char} {cs ds : List Char}

theorem digit_iff : digit c = true ↔ 48 ≤ c.toNat ∧ c.toNat ≤ 57 := by
  rw [digit, Bool.and_eq_true, decide_eq_true_eq, decide_eq_true_eq]
  exact Iff.rfl

theorem digitChar_of_digit (h : digit c = true) : (c.toNat - 48).digitChar = c := by
  obtain ⟨hlow, hhigh⟩ := digit_iff.mp h
  refine Char.toNat_inj.mp ?_
  rw [Nat.toNat_digitChar_of_lt_ten (by omega)]
  omega

theorem digit_of_mem_toDigits (h : c ∈ Nat.toDigits 10 n) : digit c = true := by
  have hdigit : c.isDigit = true := Nat.isDigit_of_mem_toDigits (by decide) (by decide) h
  exact digit_iff.mpr (Char.isDigit_iff_toNat.mp hdigit)

/-- A number other than zero starts with a digit other than zero. -/
theorem toDigits_eq_cons (hn : n ≠ 0) : ∃ c ds, Nat.toDigits 10 n = c :: ds ∧ c ≠ '0' := by
  induction n using Nat.strong_induction_on with
  | h n ih =>
    by_cases hlt : n < 10
    · refine ⟨n.digitChar, [], Nat.toDigits_of_lt_base hlt, ?_⟩
      rwa [ne_eq, Nat.digitChar_eq_zero]
    · obtain ⟨c, ds, hds, hc⟩ := ih (n / 10) (by omega) (by omega)
      refine ⟨c, ds ++ [(n % 10).digitChar], ?_, hc⟩
      rw [Nat.toDigits_of_base_le (by decide) (by omega), hds, List.cons_append]

/-- Digits that do not start with a zero are the digits of their value, which is positive. -/
theorem toDigits_ofDigitChars (hc : digit c = true) (hne : c ≠ '0') (hds : ∀ d ∈ ds, digit d = true) :
    Nat.toDigits 10 (Nat.ofDigitChars 10 (c :: ds) 0) = c :: ds ∧ 0 < Nat.ofDigitChars 10 (c :: ds) 0 := by
  induction ds using List.reverseRecOn with
  | nil =>
    obtain ⟨hlow, hhigh⟩ := digit_iff.mp hc
    have hvalue : Nat.ofDigitChars 10 [c] 0 = c.toNat - 48 := by
      rw [Nat.ofDigitChars_cons, Nat.ofDigitChars_nil]
      exact Nat.zero_add _
    have hzero : c.toNat ≠ 48 := fun h => hne (Char.toNat_inj.mp h)
    rw [hvalue]
    refine ⟨?_, by omega⟩
    rw [Nat.toDigits_of_lt_base (by omega), digitChar_of_digit hc]
  | append_singleton ds d ih =>
    obtain ⟨hdigits, hpos⟩ := ih fun d hd => hds d (List.mem_append_left _ hd)
    have hd : digit d = true := hds d (List.mem_append_right _ (List.mem_singleton_self d))
    obtain ⟨hlow, hhigh⟩ := digit_iff.mp hd
    have hvalue : Nat.ofDigitChars 10 (c :: (ds ++ [d])) 0 =
        10 * Nat.ofDigitChars 10 (c :: ds) 0 + (d.toNat - 48) := by
      rw [← List.cons_append, Nat.ofDigitChars_append, Nat.ofDigitChars_cons, Nat.ofDigitChars_nil]
      rfl
    rw [hvalue]
    refine ⟨?_, by omega⟩
    rw [← Nat.toDigits_append_toDigits (by decide) hpos (by omega), hdigits,
      Nat.toDigits_of_lt_base (by omega), digitChar_of_digit hd, List.cons_append]

/-- A text matches exactly when it is how a number is written. -/
theorem decimal_iff : decimal.fullmatch cs = true ↔ ∃ n : ℕ, cs = Nat.toDigits 10 n := by
  rw [decimal, fullmatch_alt, fullmatch_cls]
  constructor
  · rintro (⟨c, hc, rfl⟩ | h)
    · obtain rfl := of_decide_eq_true hc
      exact ⟨0, (Nat.toDigits_zero 10).symm⟩
    · cases cs with
      | nil => exact absurd (fullmatch_cls_nil.symm.trans h) Bool.false_ne_true
      | cons c ds =>
        obtain ⟨hc, hds⟩ := fullmatch_cls_cons.mp h
        have hfirst : 49 ≤ c.toNat ∧ c.toNat ≤ 57 := by
          rw [Bool.and_eq_true, decide_eq_true_eq, decide_eq_true_eq] at hc
          exact hc
        have hdigit : digit c = true := digit_iff.mpr ⟨by omega, hfirst.2⟩
        have hne : c ≠ '0' := fun h => absurd (h ▸ hfirst.1) (by decide)
        exact ⟨_, (toDigits_ofDigitChars hdigit hne (fullmatch_star_cls.mp hds)).1.symm⟩
  · rintro ⟨n, rfl⟩
    by_cases hn : n = 0
    · subst hn
      exact .inl ⟨'0', rfl, Nat.toDigits_zero 10⟩
    · obtain ⟨c, ds, hds, hc⟩ := toDigits_eq_cons hn
      have hdigits : ∀ d ∈ c :: ds, digit d = true := fun d hd => digit_of_mem_toDigits (hds ▸ hd)
      obtain ⟨hlow, hhigh⟩ := digit_iff.mp (hdigits c List.mem_cons_self)
      have hzero : c.toNat ≠ 48 := fun h => hc (Char.toNat_inj.mp h)
      have hfirst : 49 ≤ c.toNat := by omega
      rw [hds]
      refine .inr (fullmatch_cls_cons.mpr ⟨?_, fullmatch_star_cls.mpr fun d hd => hdigits d (List.mem_cons_of_mem _ hd)⟩)
      rw [Bool.and_eq_true, decide_eq_true_eq, decide_eq_true_eq]
      exact ⟨hfirst, hhigh⟩

end Decimals
/-- `a.b.c`. -/
def dottedText (a b c : ℕ) : String := toString a ++ "." ++ toString b ++ "." ++ toString c

/-- `int(text)` of digits, which Python refuses from 4301 on. -/
def toInt (text : List Char) : Except ScriptError ℕ :=
  if text.length ≤ 4300 then .ok (Nat.ofDigitChars 10 text 0)
  else .error (.valueError ("Exceeds the limit (4300 digits) for integer string conversion: value has " ++
    toString text.length ++ " digits; use sys.set_int_max_str_digits() to increase the limit"))

/-- `version(value)`; tuples of numbers compare as lists do. -/
def version : Json → Except ScriptError (List ℕ)
  | .str value =>
    if dotted.fullmatch value.toList then (value.toList.splitOn '.').mapM toInt
    else .error (.valueError "Missing/invalid live release identity; bootstrap or recover before delivery")
  | _ => .error (.valueError "Missing/invalid live release identity; bootstrap or recover before delivery")

section Texts
variable {a b c a' b' c' : ℕ} {s s' : String} {v : Json} {t : List ℕ}

theorem toList_dottedText : (dottedText a b c).toList =
    Nat.toDigits 10 a ++ '.' :: (Nat.toDigits 10 b ++ '.' :: Nat.toDigits 10 c) := by
  have hdigits (n : ℕ) : (toString n).toList = Nat.toDigits 10 n := by
    rw [Nat.toString_eq_ofList_toDigits, String.toList_ofList]
  have hdot : ".".toList = ['.'] := rfl
  simp only [dottedText, String.toList_append, hdigits, hdot, List.append_assoc, List.cons_append, List.nil_append]

theorem dotted_iff : dotted.fullmatch s.toList = true ↔ ∃ a b c, s = dottedText a b c := by
  constructor
  · intro h
    obtain ⟨x, rest, hx, hrest, hs⟩ := fullmatch_seq.mp h
    obtain ⟨dot, rest', hdot, hrest', rfl⟩ := fullmatch_seq.mp hrest
    obtain ⟨y, rest'', hy, hrest'', rfl⟩ := fullmatch_seq.mp hrest'
    obtain ⟨dot', z, hdot', hz, rfl⟩ := fullmatch_seq.mp hrest''
    obtain ⟨a, rfl⟩ := decimal_iff.mp hx
    obtain ⟨b, rfl⟩ := decimal_iff.mp hy
    obtain ⟨c, rfl⟩ := decimal_iff.mp hz
    obtain ⟨d, hd, rfl⟩ := fullmatch_cls.mp hdot
    obtain ⟨d', hd', rfl⟩ := fullmatch_cls.mp hdot'
    obtain rfl := of_decide_eq_true hd
    obtain rfl := of_decide_eq_true hd'
    refine ⟨a, b, c, String.toList_injective ?_⟩
    rw [← hs, toList_dottedText]
    rfl
  · rintro ⟨a, b, c, rfl⟩
    rw [toList_dottedText]
    have hnumber (n : ℕ) : decimal.fullmatch (Nat.toDigits 10 n) = true := decimal_iff.mpr ⟨n, rfl⟩
    have hlast : (Regex.seq decimal (.seq (.cls (· = '.')) decimal)).fullmatch
        (Nat.toDigits 10 b ++ '.' :: Nat.toDigits 10 c) = true :=
      fullmatch_seq.mpr ⟨_, _, hnumber b, fullmatch_cls_cons.mpr ⟨rfl, hnumber c⟩, rfl⟩
    exact fullmatch_seq.mpr ⟨_, _, hnumber a, fullmatch_cls_cons.mpr ⟨rfl, hlast⟩, rfl⟩

theorem splitOn_dottedText : (dottedText a b c).toList.splitOn '.' =
    [Nat.toDigits 10 a, Nat.toDigits 10 b, Nat.toDigits 10 c] := by
  have hnodot (n : ℕ) : '.' ∉ Nat.toDigits 10 n := fun h => absurd (digit_of_mem_toDigits h) (by decide)
  have hjoin : (dottedText a b c).toList =
      ['.'].intercalate [Nat.toDigits 10 a, Nat.toDigits 10 b, Nat.toDigits 10 c] := by
    rw [toList_dottedText]
    simp [List.intercalate, List.intersperse]
  rw [hjoin]
  refine List.splitOn_intercalate '.' (fun digits hd => ?_) (List.cons_ne_nil _ _)
  simp only [List.mem_cons, List.not_mem_nil, or_false] at hd
  rcases hd with rfl | rfl | rfl <;> exact hnodot _

theorem toInt_toDigits {n m : ℕ} : toInt (Nat.toDigits 10 n) = .ok m ↔ n = m ∧ (toString n).length ≤ 4300 := by
  have hlength : (toString n).length = (Nat.toDigits 10 n).length := by
    rw [Nat.toString_eq_ofList_toDigits, String.length_ofList]
  rw [toInt, Nat.ofDigitChars_ten_toDigits, hlength]
  split
  · next h => exact ⟨fun he => ⟨Except.ok.inj he, h⟩, fun he => congrArg _ he.1⟩
  · next h => exact ⟨(fun he => by cases he), fun he => absurd he.2 h⟩

/-- A version is accepted exactly when it is a dotted triple of numbers that Python converts. -/
theorem version_eq_ok : version v = .ok t ↔ ∃ a b c : ℕ, v = .str (dottedText a b c) ∧ t = [a, b, c] ∧
    (toString a).length ≤ 4300 ∧ (toString b).length ≤ 4300 ∧ (toString c).length ≤ 4300 := by
  constructor
  · intro h
    unfold version at h
    split at h
    · split at h
      · next value hmatch =>
        obtain ⟨a, b, c, rfl⟩ := dotted_iff.mp hmatch
        rw [splitOn_dottedText] at h
        simp only [List.mapM_cons, List.mapM_nil, bind_eq_ok, toInt_toDigits] at h
        obtain ⟨_, ⟨rfl, ha⟩, _, ⟨_, ⟨rfl, hb⟩, _, ⟨_, ⟨rfl, hc⟩, _, hnil, hthird⟩, hsecond⟩, hfirst⟩ := h
        obtain rfl := Except.ok.inj hnil
        obtain rfl := Except.ok.inj hthird
        obtain rfl := Except.ok.inj hsecond
        exact ⟨a, b, c, rfl, (Except.ok.inj hfirst).symm, ha, hb, hc⟩
      · contradiction
    · contradiction
  · rintro ⟨a, b, c, rfl, rfl, ha, hb, hc⟩
    rw [version, if_pos (dotted_iff.mpr ⟨a, b, c, rfl⟩), splitOn_dottedText]
    simp only [List.mapM_cons, List.mapM_nil, bind_eq_ok]
    exact ⟨a, toInt_toDigits.mpr ⟨rfl, ha⟩, _, ⟨b, toInt_toDigits.mpr ⟨rfl, hb⟩, _,
      ⟨c, toInt_toDigits.mpr ⟨rfl, hc⟩, _, rfl, rfl⟩, rfl⟩, rfl⟩

/-- Texts of one version are one text. -/
theorem version_inj {v' : Json} (h : version v = .ok t) (h' : version v' = .ok t) : v = v' := by
  obtain ⟨a, b, c, rfl, rfl, -⟩ := version_eq_ok.mp h
  obtain ⟨a', b', c', rfl, ht, -⟩ := version_eq_ok.mp h'
  obtain ⟨rfl, rfl, rfl⟩ : a = a' ∧ b = b' ∧ c = c' := by simpa using ht
  rfl

/-- Triples compare by the first number in which they differ. -/
theorem triple_lt : [a, b, c] < [a', b', c'] ↔ a < a' ∨ a = a' ∧ (b < b' ∨ b = b' ∧ c < c') := by
  simp [List.cons_lt_cons_iff]

end Texts
end Mic3
