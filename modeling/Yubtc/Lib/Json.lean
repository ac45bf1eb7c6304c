import Yubtc.Lib.ExceptRules

/-!
Decoded JSON as a dynamically typed program sees it: truth values, subscripts, `get`,
iteration and arithmetic, each with the message of the exception it raises on a value of
another type. Numbers are exact.
-/
namespace DynamicJson

open ExceptRules

inductive Json where
  | null
  | bool (value : Bool)
  | num (value : ℚ)
  | str (value : String)
  | arr (items : List Json)
  | obj (fields : List (String × Json))

namespace Json

/-- The name that type errors print. A number that is not whole is a float. -/
def typeName : Json → String
  | null => "NoneType"
  | bool _ => "bool"
  | num value => if value.den = 1 then "int" else "float"
  | str _ => "str"
  | arr _ => "list"
  | obj _ => "dict"

/-- The truth value in `if x` and `x or y`. -/
def truthy : Json → Bool
  | null => false
  | bool b => b
  | num q => decide (q ≠ 0)
  | str s => decide (s ≠ "")
  | arr items => !items.isEmpty
  | obj fields => !fields.isEmpty

/-- `x or y`. -/
def or (x y : Json) : Json := if x.truthy then x else y

/-- The field of an object; an absent field and any other value have none. -/
def field? : Json → String → Option Json
  | obj fields, key => fields.lookup key
  | _, _ => none

/-- `x[key]`. -/
def subscript : Json → String → Except String Json
  | obj fields, key =>
    match fields.lookup key with
    | some value => .ok value
    | none => .error ("'" ++ key ++ "'")
  | arr _, _ => .error "list indices must be integers or slices, not str"
  | str _, _ => .error "string indices must be integers, not 'str'"
  | x, _ => .error ("'" ++ x.typeName ++ "' object is not subscriptable")

/-- `x.get(key)`. -/
def get : Json → String → Except String Json
  | obj fields, key => .ok ((fields.lookup key).getD null)
  | x, _ => .error ("'" ++ x.typeName ++ "' object has no attribute 'get'")

/-- What `for y in x` runs over. -/
def iter : Json → Except String (List Json)
  | arr items => .ok items
  | obj fields => .ok (fields.map fun field => str field.1)
  | str s => .ok (s.toList.map fun c => str c.toString)
  | x => .error ("'" ++ x.typeName ++ "' object is not iterable")

/-- The numbers, truth values among them. -/
def number? : Json → Option ℚ
  | num q => some q
  | bool b => some (if b then 1 else 0)
  | _ => none

def operandError (op : String) (x y : Json) : String :=
  "unsupported operand type(s) for " ++ op ++ ": '" ++ x.typeName ++ "' and '" ++
    y.typeName ++ "'"

/-- A text or a list at the left of `+` names what it can be continued with. -/
def addError (x y : Json) : String :=
  match x with
  | str _ | arr _ =>
    "can only concatenate " ++ x.typeName ++ " (not \"" ++ y.typeName ++ "\") to " ++ x.typeName
  | _ => operandError "+" x y

/-- `x + y`. -/
def add (x y : Json) : Except String Json :=
  match x.number?, y.number? with
  | some p, some q => .ok (num (p + q))
  | _, _ =>
    match x, y with
    | str s, str t => .ok (str (s ++ t))
    | arr s, arr t => .ok (arr (s ++ t))
    | _, _ => .error (addError x y)

/-- `x - y`. -/
def sub (x y : Json) : Except String Json :=
  match x.number?, y.number? with
  | some p, some q => .ok (num (p - q))
  | _, _ => .error (operandError "-" x y)

/-- An object with the field. -/
def Has (x : Json) (key : String) : Prop := ∃ value, x.field? key = some value

instance (x : Json) (key : String) : Decidable (x.Has key) :=
  decidable_of_iff ((x.field? key).isSome = true) Option.isSome_iff_exists

def IsObject (x : Json) : Prop := ∃ fields, x = obj fields

/-- `x.get(key) or fallback`, where `x` is an object. -/
def getOr (x : Json) (key : String) (fallback : Json) : Json :=
  ((x.field? key).getD null).or fallback

/-- Two values that `+` accepts. -/
def Addable (x y : Json) : Prop :=
  (x.number?.isSome ∧ y.number?.isSome) ∨ (∃ s t, x = str s ∧ y = str t) ∨
    ∃ s t, x = arr s ∧ y = arr t

theorem subscript_eq_ok {x value : Json} {key : String} :
    x.subscript key = .ok value ↔ x.field? key = some value := by
  cases x with
  | obj fields =>
    simp only [subscript, field?]
    cases fields.lookup key <;> simp
  | _ => simp [subscript, field?]

@[simp] theorem succeeds_subscript {x : Json} {key : String} :
    Succeeds (x.subscript key) ↔ x.Has key := by
  simp only [Succeeds, subscript_eq_ok, Has]

/-- `get` asks for an object only. -/
theorem get_eq_ok {x value : Json} {key : String} :
    x.get key = .ok value ↔ x.IsObject ∧ (x.field? key).getD null = value := by
  cases x <;> simp [get, field?, IsObject]

theorem succeeds_get_bind {α : Type} {x : Json} {key : String} {f : Json → Except String α} :
    Succeeds (x.get key >>= f) ↔ x.IsObject ∧ Succeeds (f ((x.field? key).getD null)) := by
  simp only [succeeds_bind, get_eq_ok]
  constructor
  · rintro ⟨_, ⟨hx, rfl⟩, hf⟩
    exact ⟨hx, hf⟩
  · rintro ⟨hx, hf⟩
    exact ⟨_, ⟨hx, rfl⟩, hf⟩

@[simp] theorem succeeds_add {x y : Json} : Succeeds (x.add y) ↔ Addable x y := by
  unfold add Addable
  cases x <;> cases y <;> simp [number?]

/-- A sum is a number exactly when both terms are. -/
theorem add_number {x y z : Json} (h : x.add y = .ok z) :
    z.number?.isSome ↔ x.number?.isSome ∧ y.number?.isSome := by
  revert h
  unfold add
  cases x <;> cases y <;> simp [number?] <;> rintro rfl <;> simp

@[simp] theorem succeeds_sub {x y : Json} :
    Succeeds (x.sub y) ↔ x.number?.isSome ∧ y.number?.isSome := by
  unfold sub
  cases x.number? <;> cases y.number? <;> simp

theorem sub_number {x y z : Json} (h : x.sub y = .ok z) : z.number?.isSome := by
  revert h
  unfold sub
  cases x.number? <;> cases y.number? <;> simp
  rintro rfl
  rfl

@[simp] theorem number?_num (q : ℚ) : (num q).number? = some q := rfl
@[simp] theorem truthy_null : null.truthy = false := rfl
@[simp] theorem truthy_num (q : ℚ) : (num q).truthy = decide (q ≠ 0) := rfl

end Json

end DynamicJson
