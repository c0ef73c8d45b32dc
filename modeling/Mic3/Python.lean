import Mathlib.Data.List.Infix
import Mic3.Equality

/-! What Python does with a decoded JSON document in the release scripts: access, iteration, comparison, and the
errors these raise where a value is not of the type that the code expects. -/
namespace Mic3

/-- What a script raises; a failed command carries its standard error. -/
inductive ScriptError where
  | valueError (message : String)
  | runtimeError (message : String)
  | keyError
  | indexError
  | typeError
  | attributeError
  | calledProcessError (stderr : String)
  deriving DecidableEq

/-- `if bad: raise ValueError(message)`. -/
def refuse (bad : Bool) (message : String) : Except ScriptError Unit :=
  if bad then .error (.valueError message) else .ok ()

@[simp] theorem refuse_eq_ok {bad : Bool} {message : String} {u : Unit} : refuse bad message = .ok u ↔ bad = false := by
  cases bad <;> simp [refuse]

namespace Json

/-- `value[key]`. -/
def item (value : Json) (key : String) : Except ScriptError Json :=
  match value with
  | .obj fields => match fields.lookup key with
    | some v => .ok v
    | none => .error .keyError
  | _ => .error .typeError

/-- `value[0]`. -/
def first : Json → Except ScriptError Json
  | .arr (v :: _) => .ok v
  | .arr [] => .error .indexError
  | .str text => match text.toList with
    | c :: _ => .ok (.str (String.ofList [c]))
    | [] => .error .indexError
  | .obj _ => .error .keyError
  | _ => .error .typeError

/-- `value.get(key, default)`. -/
def getD (value : Json) (key : String) (default : Json) : Except ScriptError Json :=
  match value with
  | .obj fields => .ok ((fields.lookup key).getD default)
  | _ => .error .attributeError

/-- The values that `for .. in value` goes through. -/
def iterate : Json → Except ScriptError (List Json)
  | .arr items => .ok items
  | .obj fields => .ok (fields.map fun e => .str e.1)
  | .str text => .ok (text.toList.map fun c => .str (String.ofList [c]))
  | _ => .error .typeError

/-- `text in value`. -/
def isIn (text : String) : Json → Except ScriptError Bool
  | .obj fields => .ok (fields.any fun e => e.1 = text)
  | .arr items => .ok (items.any fun v => equal v (.str text))
  | .str s => .ok (decide (text.toList <:+: s.toList))
  | _ => .error .typeError

/-- Whether a value can be the key of a dict. -/
def hashable : Json → Bool
  | .arr _ | .obj _ => false
  | _ => true

/-- `value or default`. -/
def orElse (value default : Json) : Json :=
  let falsy : Bool := match value with
    | .null | .bool false | .str "" | .arr [] | .obj [] => true
    | v => numberValue v = some 0
  if falsy then default else value

/-- A number with the infinities at the ends; `nan` has no place. -/
def place : Json → Option (WithBot (WithTop ℚ))
  | .float "inf" => some ((⊤ : WithTop ℚ) : WithBot (WithTop ℚ))
  | .float "-inf" => some ⊥
  | v => (numberValue v).map fun q => ((q : WithTop ℚ) : WithBot (WithTop ℚ))

/-- Whether both values are numbers, of any type. -/
def isNumber : Json → Bool
  | .bool _ | .int _ | .float _ => true
  | _ => false

mutual
/-- `a < b`. -/
def lessThan : Json → Json → Except ScriptError Bool
  | .str a, .str b => .ok (a < b)
  | .arr as, b => match b with
    | .arr bs => lessItems as bs
    | _ => .error .typeError
  | a, b =>
    if isNumber a && isNumber b then .ok (match place a, place b with
      | some x, some y => x < y
      | _, _ => false)
    else .error .typeError

/-- Lists are compared where they first differ. -/
def lessItems : List Json → List Json → Except ScriptError Bool
  | [], bs => .ok (bs ≠ [])
  | _ :: _, [] => .ok false
  | a :: as, b :: bs => if equal a b then lessItems as bs else lessThan a b
end

theorem item_eq_ok {value v : Json} {key : String} : value.item key = .ok v ↔ value.get? key = some v := by
  cases value with
  | obj fields =>
    rw [item, get?]
    cases fields.lookup key <;> simp
  | _ => simp [item, get?]

theorem getD_eq_ok {value default v : Json} {key : String} (h : value.getD key default = .ok v) :
    ∃ fields, value = .obj fields ∧ v = (fields.lookup key).getD default := by
  cases value with
  | obj fields => exact ⟨fields, rfl, (Except.ok.inj h).symm⟩
  | _ => contradiction

theorem orElse_cases {value default : Json} : value.orElse default = default ∨ value.orElse default = value :=
  ite_eq_or_eq _ _ _

theorem lessThan_int {a b : ℤ} : (Json.int a).lessThan (.int b) = .ok (decide (a < b)) := by
  have hplace (n : ℤ) : (Json.int n).place = some (((n : ℚ) : WithTop ℚ) : WithBot (WithTop ℚ)) := rfl
  have hlt : (((a : ℚ) : WithTop ℚ) : WithBot (WithTop ℚ)) < ((b : ℚ) : WithTop ℚ) ↔ a < b := by
    rw [WithBot.coe_lt_coe, WithTop.coe_lt_coe, Int.cast_lt]
  rw [lessThan, hplace, hplace]
  · simp only [isNumber, Bool.and_self, if_true, hlt]
  all_goals nofun

end Json
end Mic3
