import UnlearnShield.Library.Dict
import UnlearnShield.Python.Int

/-! # Python values and exceptions

The values that `json.loads` can return, and the dictionaries the program builds in
memory, whose keys may also be integers. A `dict` holds the pairs it was built
from; reading it goes through `Dict.ofList`, so a repeated key keeps its first
place and its last value, as in Python.
-/
namespace UnlearnShield

inductive ErrKind
  | valueError | keyError | typeError | attributeError | indexError
  | fileNotFoundError | runtimeError | determinismError | overflowError | databaseError | httpException
  deriving DecidableEq, Repr

structure PyErr where
  kind : ErrKind
  message : String
  deriving DecidableEq, Repr

abbrev Py := Except PyErr

def raise {α : Type} (kind : ErrKind) (message : String) : Py α := .error ⟨kind,message⟩

@[simp] theorem ok_bind {α β : Type} (a : α) (f : α → Py β) : ((.ok a : Py α) >>= f) = f a := rfl

@[simp] theorem error_bind {α β : Type} (e : PyErr) (f : α → Py β) :
    ((.error e : Py α) >>= f) = .error e := rfl

/-- A sequence returns when its first part does and the rest does on its value. -/
theorem bind_eq_ok {α β : Type} {x : Py α} {f : α → Py β} {b : β} :
    (x >>= f) = .ok b ↔ ∃ a, x = .ok a ∧ f a = .ok b := by
  cases x with
  | error e => simp
  | ok a => simp

/-- A loop returns when each of its steps does. -/
theorem mapM_eq_ok {α β : Type} {f : α → Py β} {as : List α} {bs : List β} :
    as.mapM f = .ok bs ↔ as.map f = bs.map .ok := by
  induction as generalizing bs with
  | nil =>
    rw [List.mapM_nil, List.map_nil, eq_comm (a := []), List.map_eq_nil_iff]
    exact ⟨fun h => (Except.ok.inj h).symm,fun h => h ▸ rfl⟩
  | cons a as ih =>
    rw [List.mapM_cons, List.map_cons]
    constructor
    · intro h
      obtain ⟨b,hb,h⟩ := bind_eq_ok.mp h
      obtain ⟨bs',hbs,h⟩ := bind_eq_ok.mp h
      cases h
      rw [hb, ih.mp hbs]
      rfl
    · intro h
      cases bs with
      | nil => cases h
      | cons b bs =>
        obtain ⟨hb,hbs⟩ := List.cons.inj h
        rw [hb, ok_bind, ih.mpr hbs]
        rfl

inductive PyKey
  | int (n : ℤ)
  | str (s : String)
  deriving DecidableEq, Repr

inductive PyVal
  | none
  | bool (b : Bool)
  | int (n : ℤ)
  /-- A float, by the text `float.__repr__` gives it. -/
  | float (repr : String)
  | str (s : String)
  | list (xs : List PyVal)
  | dict (pairs : List (PyKey × PyVal))

namespace PyVal

def typeName : PyVal → String
  | none => "NoneType"
  | bool _ => "bool"
  | int _ => "int"
  | float _ => "float"
  | str _ => "str"
  | list _ => "list"
  | dict _ => "dict"

/-- The items of a dictionary built from `pairs`. -/
def items (pairs : List (PyKey × PyVal)) : List (PyKey × PyVal) := (Dict.ofList pairs).entries

/-- `v.get(key)`; only dictionaries have the attribute. -/
def get (v : PyVal) (key : String) : Py PyVal :=
  match v with
  | dict pairs => .ok (((Dict.ofList pairs).get? (.str key)).getD none)
  | v => raise .attributeError s!"'{v.typeName}' object has no attribute 'get'"

/-- `v[key]` for a string `key`. -/
def subscript (v : PyVal) (key : String) : Py PyVal :=
  match v with
  | dict pairs =>
    match (Dict.ofList pairs).get? (.str key) with
    | some x => .ok x
    | Option.none => raise .keyError s!"'{key}'"
  | list _ => raise .typeError "list indices must be integers or slices, not str"
  | str _ => raise .typeError "string indices must be integers, not 'str'"
  | v => raise .typeError s!"'{v.typeName}' object is not subscriptable"

theorem subscript_of_mem {pairs : List (PyKey × PyVal)} {key : String} {x : PyVal}
    (hn : (pairs.map Prod.fst).Nodup) (h : (.str key,x) ∈ pairs) : (dict pairs).subscript key = .ok x := by
  have hget : (Dict.ofList pairs).get? (.str key) = some x := by
    rw [Dict.get?_eq_some, Dict.entries_ofList hn]
    exact h
  rw [subscript, hget]

/-- `bytes.fromhex(v)`. -/
def fromhex : PyVal → Py Bytes
  | str s =>
    match Bytes.fromhex s with
    | some b => .ok b
    | Option.none => raise .valueError "non-hexadecimal number found in fromhex() arg"
  | v => raise .typeError s!"fromhex() argument must be str, not {v.typeName}"

/-- `v == s` for a string `s`. -/
def eqStr (v : PyVal) (s : String) : Bool :=
  match v with
  | str s' => s' == s
  | _ => false

@[simp] theorem eqStr_str (s t : String) : (str s).eqStr t = (s == t) := rfl

theorem eqStr_eq_true {v : PyVal} {s : String} : v.eqStr s = true ↔ v = str s := by
  cases v <;> simp [eqStr]

end PyVal

/-- `int(key)` for a dictionary key. -/
def PyKey.toInt : PyKey → Py ℤ
  | .int n => .ok n
  | .str s =>
    match PyInt.ofString s with
    | some n => .ok n
    | none => raise .valueError s!"invalid literal for int() with base 10: '{s}'"

end UnlearnShield
