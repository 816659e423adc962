import Mathlib.Data.List.Basic

/-!
# JSON values and their serialised text

Tool arguments and extension data are JSON values. A number is kept as the text
that serialisation writes for it; fields of an object are kept in insertion order.
-/

namespace Draht

mutual
inductive Json where
  | null
  | bool (b : Bool)
  | number (text : String)
  | string (s : String)
  | array (xs : JsonArray)
  | object (fields : JsonFields)
deriving DecidableEq

inductive JsonArray where
  | nil
  | cons (head : Json) (tail : JsonArray)
deriving DecidableEq

inductive JsonFields where
  | nil
  | cons (key : String) (value : Json) (tail : JsonFields)
deriving DecidableEq
end

def totalOf {α : Type} (f : α → ℕ) (xs : List α) : ℕ := xs.foldl (fun total x => total + f x) 0

/-- The number of UTF-16 code units of a string, which is what `.length` counts. -/
def jsLength (s : String) : ℕ := totalOf (fun c => if c.toNat < 0x10000 then 1 else 2) s.toList

def hexDigit (n : ℕ) : Char :=
  if n < 10 then Char.ofNat (48 + n) else Char.ofNat (87 + n)

/-- One character inside a serialised string: quotes, backslashes and control
characters are escaped, everything else is written as it is. -/
def jsonEscape (c : Char) : List Char :=
  if c = '"' then ['\\', '"']
  else if c = '\\' then ['\\', '\\']
  else if c = '\n' then ['\\', 'n']
  else if c = '\r' then ['\\', 'r']
  else if c = '\t' then ['\\', 't']
  else if c.toNat = 8 then ['\\', 'b']
  else if c.toNat = 12 then ['\\', 'f']
  else if c.toNat < 32 then ['\\', 'u', '0', '0', hexDigit (c.toNat / 16), hexDigit (c.toNat % 16)]
  else [c]

def jsonQuote (s : String) : List Char :=
  '"' :: s.toList.flatMap jsonEscape ++ ['"']

mutual
def Json.stringify : Json → List Char
  | .null => "null".toList
  | .bool b => if b then "true".toList else "false".toList
  | .number text => text.toList
  | .string s => jsonQuote s
  | .array xs => '[' :: xs.stringify ++ [']']
  | .object fields => '{' :: fields.stringify ++ ['}']

def JsonArray.stringify : JsonArray → List Char
  | .nil => []
  | .cons x .nil => x.stringify
  | .cons x (.cons y xs) => x.stringify ++ ',' :: (JsonArray.cons y xs).stringify

def JsonFields.stringify : JsonFields → List Char
  | .nil => []
  | .cons k v .nil => jsonQuote k ++ ':' :: v.stringify
  | .cons k v (.cons k' v' fields) =>
    jsonQuote k ++ ':' :: v.stringify ++ ',' :: (JsonFields.cons k' v' fields).stringify
end

/-- `args[key]`, the value of the first field of that name. -/
def JsonFields.get (key : String) : JsonFields → Option Json
  | .nil => none
  | .cons k v fields => if k = key then some v else fields.get key

def JsonArray.strings : JsonArray → List String
  | .nil => []
  | .cons (.string s) xs => s :: xs.strings
  | .cons _ xs => xs.strings

example : (Json.array (.cons (.string "a\"b") .nil)).stringify = "[\"a\\\"b\"]".toList := by
  decide

end Draht
