import UnlearnShield.Python.Value

/-! # `json.dumps(value, sort_keys=True, separators=(",", ":"), ensure_ascii=True)`

The items of every object are sorted by their original keys, integers by value and
strings by code point; only the sorted keys are written as text. Reading the text
back gives string keys, in an order that depends on the store: the file keeps the
written order, a JSONB column chooses its own.
-/
namespace UnlearnShield.Json

abbrev Text := List Char

def hex4 (n : ℕ) : Text :=
  '\\' :: 'u' :: [n / 4096 % 16, n / 256 % 16, n / 16 % 16, n % 16].map Nat.digitChar

def escapeChar (c : Char) : Text :=
  if c = '"' then ['\\', '"']
  else if c = '\\' then ['\\', '\\']
  else if c = '\n' then ['\\', 'n']
  else if c = '\r' then ['\\', 'r']
  else if c = '\t' then ['\\', 't']
  else if c = '\x08' then ['\\', 'b']
  else if c = '\x0c' then ['\\', 'f']
  else if ' ' ≤ c ∧ c ≤ '~' then [c]
  else if c.toNat < 0x10000 then hex4 c.toNat
  -- beyond the basic plane: a surrogate pair
  else hex4 (0xd800 + (c.toNat - 0x10000) / 0x400) ++ hex4 (0xdc00 + (c.toNat - 0x10000) % 0x400)

def quote (s : String) : Text := '"' :: s.toList.flatMap escapeChar ++ ['"']

def keyText : PyKey → String
  | .int n => toString n
  | .str s => s

def commaJoin : List Text → Text
  | [] => []
  | [t] => t
  | t :: t' :: rest => t ++ ',' :: commaJoin (t' :: rest)

def isIntKey : PyKey → Bool
  | .int _ => true
  | .str _ => false

/-- `a <= b` on keys of one kind. -/
def keyLe : PyKey → PyKey → Prop
  | .int a, .int b => a ≤ b
  | .str a, .str b => a ≤ b
  | .int _, .str _ => True
  | .str _, .int _ => False

instance : DecidableRel keyLe := fun a b => by
  cases a <;> cases b <;> unfold keyLe <;> infer_instance

def itemLe {α : Type} (a b : PyKey × α) : Prop := keyLe a.1 b.1

instance {α : Type} : DecidableRel (itemLe (α := α)) := fun a b => inferInstanceAs (Decidable (keyLe a.1 b.1))

/-- `sorted(d.items())`; integers and strings do not compare. -/
def sortItems {α : Type} (items : List (PyKey × α)) : Py (List (PyKey × α)) :=
  if items.all (fun e => isIntKey e.1) ∨ items.all (fun e => !isIntKey e.1) then
    .ok (items.insertionSort itemLe)
  else raise .typeError "'<' not supported between instances of 'int' and 'str'"

def objectText (items : List (PyKey × Py Text)) : Py Text := do
  let sorted ← sortItems items
  let parts ← sorted.mapM fun e => do
    let t ← e.2
    pure (quote (keyText e.1) ++ ':' :: t)
  pure ('{' :: commaJoin parts ++ ['}'])

mutual

def dumps : PyVal → Py Text
  | .none => .ok "null".toList
  | .bool b => .ok (if b then "true" else "false").toList
  | .int n => .ok (toString n).toList
  | .float repr => .ok repr.toList
  | .str s => .ok (quote s)
  | .list xs => do
    let ts ← dumpsList xs
    pure ('[' :: commaJoin ts ++ [']'])
  | .dict pairs => objectText (Dict.ofList (dumpsPairs pairs)).entries

def dumpsList : List PyVal → Py (List Text)
  | [] => .ok []
  | x :: xs => do
    let t ← dumps x
    let ts ← dumpsList xs
    pure (t :: ts)

def dumpsPairs : List (PyKey × PyVal) → List (PyKey × Py Text)
  | [] => []
  | (k,v) :: rest => (k,dumps v) :: dumpsPairs rest

end

/-- The order in which a store hands back the members of an object. -/
structure ObjectOrder where
  arrange : List (PyKey × PyVal) → List (PyKey × PyVal)
  perm : ∀ items, (arrange items).Perm items

def ObjectOrder.written : ObjectOrder := ⟨id,fun _ => List.Perm.refl _⟩

def stringKey (e : PyKey × PyVal) : PyKey × PyVal := (.str (keyText e.1),e.2)

mutual

def reload (O : ObjectOrder) : PyVal → PyVal
  | .list xs => .list (reloadList O xs)
  | .dict pairs => .dict (O.arrange
      (PyVal.items ((PyVal.items (reloadPairs O pairs)).map stringKey)))
  | v => v

def reloadList (O : ObjectOrder) : List PyVal → List PyVal
  | [] => []
  | x :: xs => reload O x :: reloadList O xs

def reloadPairs (O : ObjectOrder) : List (PyKey × PyVal) → List (PyKey × PyVal)
  | [] => []
  | (k,v) :: rest => (k,reload O v) :: reloadPairs O rest

end

def storedPairs (O : ObjectOrder) (pairs : List (PyKey × PyVal)) : List (PyKey × PyVal) :=
  O.arrange (PyVal.items ((PyVal.items (reloadPairs O pairs)).map stringKey))

theorem reload_eq_storedPairs (O : ObjectOrder) (pairs : List (PyKey × PyVal)) :
    reload O (.dict pairs) = .dict (storedPairs O pairs) := by
  rw [reload, storedPairs]

end UnlearnShield.Json
