import Mathlib.Data.List.Sort
import Mathlib.Data.String.Basic

/-! JSON values as Python holds them, and the text `json.dumps` writes for them. A float is kept as
the text Python prints for it. -/
namespace Mic3

inductive Json where
  | null
  | bool (b : Bool)
  | int (n : ℤ)
  | float (repr : String)
  | str (s : String)
  | arr (items : List Json)
  | obj (fields : List (String × Json))

namespace Json

mutual
def decEq : (a b : Json) → Decidable (a = b)
  | .null, .null => isTrue rfl
  | .bool a, .bool b => decidable_of_iff (a = b) (by simp)
  | .int a, .int b => decidable_of_iff (a = b) (by simp)
  | .float a, .float b => decidable_of_iff (a = b) (by simp)
  | .str a, .str b => decidable_of_iff (a = b) (by simp)
  | .arr a, .arr b =>
    match decEqItems a b with
    | isTrue h => isTrue (h ▸ rfl)
    | isFalse h => isFalse fun he => h (Json.arr.inj he)
  | .obj a, .obj b =>
    match decEqFields a b with
    | isTrue h => isTrue (h ▸ rfl)
    | isFalse h => isFalse fun he => h (Json.obj.inj he)
  | .null, .bool _ | .null, .int _ | .null, .float _ | .null, .str _ | .null, .arr _ | .null, .obj _
  | .bool _, .null | .bool _, .int _ | .bool _, .float _ | .bool _, .str _ | .bool _, .arr _
  | .bool _, .obj _ | .int _, .null | .int _, .bool _ | .int _, .float _ | .int _, .str _
  | .int _, .arr _ | .int _, .obj _ | .float _, .null | .float _, .bool _ | .float _, .int _
  | .float _, .str _ | .float _, .arr _ | .float _, .obj _ | .str _, .null | .str _, .bool _
  | .str _, .int _ | .str _, .float _ | .str _, .arr _ | .str _, .obj _ | .arr _, .null
  | .arr _, .bool _ | .arr _, .int _ | .arr _, .float _ | .arr _, .str _ | .arr _, .obj _
  | .obj _, .null | .obj _, .bool _ | .obj _, .int _ | .obj _, .float _ | .obj _, .str _
  | .obj _, .arr _ => isFalse nofun

def decEqItems : (a b : List Json) → Decidable (a = b)
  | [], [] => isTrue rfl
  | [], _ :: _ | _ :: _, [] => isFalse nofun
  | x :: xs, y :: ys =>
    match decEq x y, decEqItems xs ys with
    | isTrue h, isTrue hs => isTrue (h ▸ hs ▸ rfl)
    | isFalse h, _ => isFalse fun he => h (List.cons.inj he).1
    | _, isFalse hs => isFalse fun he => hs (List.cons.inj he).2

def decEqFields : (a b : List (String × Json)) → Decidable (a = b)
  | [], [] => isTrue rfl
  | [], _ :: _ | _ :: _, [] => isFalse nofun
  | (k, x) :: xs, (l, y) :: ys =>
    match decidable_of_iff (k = l) Iff.rfl, decEq x y, decEqFields xs ys with
    | isTrue hk, isTrue h, isTrue hs => isTrue (hk ▸ h ▸ hs ▸ rfl)
    | isFalse hk, _, _ => isFalse fun he => hk (Prod.mk.inj (List.cons.inj he).1).1
    | _, isFalse h, _ => isFalse fun he => h (Prod.mk.inj (List.cons.inj he).1).2
    | _, _, isFalse hs => isFalse fun he => hs (List.cons.inj he).2
end

instance : DecidableEq Json := decEq

/-- `d[key]` of a dict; `none` for a missing key and for what is not a dict. -/
def get? (key : String) : Json → Option Json
  | .obj fields => fields.lookup key
  | _ => none

/-- The characters `json.dumps` escapes, and how; `ensureAscii` writes every other character
outside ASCII as UTF-16 code units. -/
def hexDigit (n : ℕ) : Char := if n < 10 then Char.ofNat (48 + n) else Char.ofNat (87 + n)

def unit (n : ℕ) : List Char :=
  ['\\', 'u', hexDigit (n / 4096 % 16), hexDigit (n / 256 % 16), hexDigit (n / 16 % 16), hexDigit (n % 16)]

def escape (ensureAscii : Bool) (c : Char) : List Char :=
  if c = '"' then ['\\', '"']
  else if c = '\\' then ['\\', '\\']
  else if c = '\n' then ['\\', 'n']
  else if c = '\r' then ['\\', 'r']
  else if c = '\t' then ['\\', 't']
  else if c.toNat = 12 then ['\\', 'f']
  else if c.toNat = 8 then ['\\', 'b']
  else if c.toNat < 32 then unit c.toNat
  else if ensureAscii && 127 ≤ c.toNat then
    if c.toNat < 65536 then unit c.toNat
    else unit (55296 + (c.toNat - 65536) / 1024) ++ unit (56320 + (c.toNat - 65536) % 1024)
  else [c]

def quote (ensureAscii : Bool) (s : String) : List Char :=
  '"' :: s.toList.flatMap (escape ensureAscii) ++ ['"']

def member (ensureAscii : Bool) (kv : String × List Char) : List Char :=
  quote ensureAscii kv.1 ++ ':' :: kv.2

mutual
/-- `json.dumps(value, sort_keys=.., ensure_ascii=.., separators=(",", ":"))`. -/
def dumps (sortKeys ensureAscii : Bool) : Json → List Char
  | .null => "null".toList
  | .bool true => "true".toList
  | .bool false => "false".toList
  | .int n => (toString n).toList
  | .float repr => repr.toList
  | .str s => quote ensureAscii s
  | .arr items => '[' :: [','].intercalate (dumpsItems sortKeys ensureAscii items) ++ [']']
  | .obj fields =>
    let members := dumpsFields sortKeys ensureAscii fields
    let members := if sortKeys then members.insertionSort (fun a b => a.1 ≤ b.1) else members
    '{' :: [','].intercalate (members.map (member ensureAscii)) ++ ['}']

def dumpsItems (sortKeys ensureAscii : Bool) : List Json → List (List Char)
  | [] => []
  | x :: xs => dumps sortKeys ensureAscii x :: dumpsItems sortKeys ensureAscii xs

def dumpsFields (sortKeys ensureAscii : Bool) : List (String × Json) → List (String × List Char)
  | [] => []
  | (k, x) :: xs => (k, dumps sortKeys ensureAscii x) :: dumpsFields sortKeys ensureAscii xs
end

/-- `json.dumps` raises ValueError on a number that is not finite (`allow_nan=False`) and on an
integer whose decimal text is longer than Python converts. -/
def numberEncodable : Json → Bool
  | .float repr => repr ∉ ["nan", "inf", "-inf"]
  | .int n => n.natAbs < 10 ^ 4300
  | _ => true

mutual
def encodable : Json → Bool
  | .arr items => encodableItems items
  | .obj fields => encodableFields fields
  | x => numberEncodable x

def encodableItems : List Json → Bool
  | [] => true
  | x :: xs => encodable x && encodableItems xs

def encodableFields : List (String × Json) → Bool
  | [] => true
  | (_, x) :: xs => encodable x && encodableFields xs
end

end Json

abbrev Bytes := List ℕ

/-- `text.encode("utf-8")`. -/
def utf8 (text : List Char) : Bytes := text.flatMap fun c => (String.utf8EncodeChar c).map UInt8.toNat

example : String.ofList (Json.dumps true false (.obj [("b", .arr [.int (-3), .null]), ("a", .str "x\"é")])) =
    "\x7b\"a\":\"x\\\"é\",\"b\":[-3,null]\x7d" := by decide +kernel

end Mic3
