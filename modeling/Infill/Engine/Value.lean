import Infill.Data
import Infill.Decimal.Shortest
import Infill.Text.Blank
import Infill.Text.Quoted
import Infill.Text.Split

/-!
The values of template expressions: the data of the context, the value of what
is not there, and the state of a loop.
-/
namespace Infill.Engine

inductive Value
  /-- The value of a name or an attribute that is not there. -/
  | undefined
  | none
  | boolean (value : Bool)
  | integer (value : Int)
  | real (value : Float)
  | string (content : List Char)
  | list (items : List Value)
  /-- Entries ordered by key. -/
  | map (entries : List (List Char × Value))
  /-- A loop in its pass `index`, counted from zero, out of `length`. -/
  | loop (index length : Nat)
  deriving Inhabited, Repr

namespace Value

mutual

/-- The value of data. -/
def ofData : Data → Value
  | .null => .none
  | .boolean value => .boolean value
  | .integer value => .integer value
  | .real value => .real value
  | .string content => .string content.toList
  | .list items => .list (ofDataList items)
  | .object entries => .map (ofDataEntries entries)

def ofDataList : List Data → List Value
  | [] => []
  | data :: rest => ofData data :: ofDataList rest

def ofDataEntries : List (String × Data) → List (List Char × Value)
  | [] => []
  | (key, data) :: rest => (key.toList, ofData data) :: ofDataEntries rest

end

def isUndefined : Value → Bool
  | undefined => true
  | _ => false

/-- Whether a value counts as true in a condition. -/
def isTrue : Value → Bool
  | undefined | none => false
  | boolean value => value
  | integer value => value != 0
  | real value => value != 0.0
  | string content => !content.isEmpty
  | list items => !items.isEmpty
  | map entries => !entries.isEmpty
  | loop .. => true

mutual

/-- The text of a value that stands in a list or a map, where strings are
quoted. -/
def inner : Value → List Char
  | undefined => "Undefined".toList
  | none => "None".toList
  | boolean value => (if value then "True" else "False").toList
  | integer value => (toString value).toList
  | real value => Decimal.text value
  | string content => Text.quoted content
  | list items => '[' :: innerList items ++ [']']
  | map entries => '{' :: innerEntries entries ++ ['}']
  | loop index length => ("<loop " ++ index.repr ++ "/" ++ length.repr ++ ">").toList

def innerList : List Value → List Char
  | [] => []
  | [value] => inner value
  | value :: rest => inner value ++ ',' :: ' ' :: innerList rest

def innerEntries : List (List Char × Value) → List Char
  | [] => []
  | [(key, value)] => Text.quoted key ++ ':' :: ' ' :: inner value
  | (key, value) :: rest =>
    Text.quoted key ++ ':' :: ' ' :: inner value ++ ',' :: ' ' :: innerEntries rest

end

/-- The text of a value in the output. -/
def text : Value → List Char
  | undefined => []
  | string content => content
  | value => value.inner

/-- Two numbers brought to one form. Truth values count as zero and one, and a
whole number beside a floating one becomes floating. -/
inductive Pair
  | integers (left right : Int)
  | reals (left right : Float)

/-- The whole number that a value counts as. -/
def asInteger? : Value → Option Int
  | integer value => some value
  | boolean value => some (if value then 1 else 0)
  | _ => Option.none

/-- The nearest floating number. -/
def floatOfInt (n : Int) : Float :=
  Float.ofInt n

/-- Bring two values to one form of number. -/
def pair? : Value → Value → Option Pair
  | real left, real right => some (.reals left right)
  | real left, right => right.asInteger?.map fun n => .reals left (floatOfInt n)
  | left, real right => left.asInteger?.map fun n => .reals (floatOfInt n) right
  | left, right => do return .integers (← left.asInteger?) (← right.asInteger?)

mutual

/-- Equality of values. Numbers are compared across their forms. -/
def equal : Value → Value → Bool
  | undefined, undefined => true
  | none, none => true
  | string left, string right => left == right
  | list left, list right => equalList left right
  | map left, map right => equalEntries left right
  | left, right =>
    match pair? left right with
    | some (.integers left right) => left == right
    | some (.reals left right) => left == right
    | Option.none => false

def equalList : List Value → List Value → Bool
  | [], [] => true
  | left :: lefts, right :: rights => equal left right && equalList lefts rights
  | _, _ => false

def equalEntries : List (List Char × Value) → List (List Char × Value) → Bool
  | [], [] => true
  | (key, left) :: lefts, (key', right) :: rights =>
    key == key' && equal left right && equalEntries lefts rights
  | _, _ => false

end

/-- The place of a kind of value in the order of values. -/
def rank : Value → Nat
  | undefined => 0
  | none => 1
  | boolean _ => 2
  | integer _ | real _ => 3
  | string _ => 4
  | list _ => 5
  | map _ => 6
  | loop .. => 7

mutual

/-- The order of values: by kind, then by size or from the front. -/
def compare : Value → Value → Ordering
  | string left, string right => compareOfLessAndEq left right
  | list left, list right => compareList left right
  | map left, map right => compareEntries left right
  | left, right =>
    match Ord.compare left.rank right.rank with
    | .eq =>
      match pair? left right with
      | some (.integers left right) => Ord.compare left right
      | some (.reals left right) =>
        if left < right then .lt else if right < left then .gt else .eq
      | Option.none => .eq
    | unequal => unequal

def compareList : List Value → List Value → Ordering
  | [], [] => .eq
  | [], _ :: _ => .lt
  | _ :: _, [] => .gt
  | left :: lefts, right :: rights => (compare left right).then (compareList lefts rights)

def compareEntries : List (List Char × Value) → List (List Char × Value) → Ordering
  | [], [] => .eq
  | [], _ :: _ => .lt
  | _ :: _, [] => .gt
  | (key, left) :: lefts, (key', right) :: rights =>
    ((compareOfLessAndEq key key').then (compare left right)).then (compareEntries lefts rights)

end

/-- The number of parts of a value: characters, items or entries. -/
def length? : Value → Option Nat
  | string content => some content.length
  | list items => some items.length
  | map entries => some entries.length
  | _ => Option.none

/-- The values that a loop runs over. What is not there has none. -/
def elements? : Value → Option (List Value)
  | undefined | none => some []
  | string content => some (content.map fun c => string [c])
  | list items => some items
  | map entries => some (entries.map fun (key, _) => string key)
  | _ => Option.none

/-- An attribute of a value. -/
def attribute? : Value → List Char → Option Value
  | map entries, name => entries.lookup name
  | loop index length, name =>
    match String.ofList name with
    | "index" => some (integer (index + 1))
    | "index0" => some (integer index)
    | "revindex" => some (integer (length - index))
    | "revindex0" => some (integer (length - index - 1))
    | "first" => some (boolean (index == 0))
    | "last" => some (boolean (index + 1 == length))
    | "length" => some (integer length)
    | _ => Option.none
  | _, _ => Option.none

/-- The element of a list at an index, which counts from the end if negative. -/
def elementAt? {α : Type} (items : List α) (index : Int) : Option α :=
  if 0 ≤ index then items[index.toNat]?
  else if 0 ≤ index + items.length then items[(index + items.length).toNat]?
  else Option.none

/-- What stands in a value under another value. -/
def item? : Value → Value → Option Value
  | list items, index => index.asInteger?.bind (elementAt? items)
  | string content, index => index.asInteger?.bind fun i => (elementAt? content i).map (string [·])
  | value, string name => value.attribute? name
  | _, _ => Option.none

/-- Whether a value holds another one: a part of a text, a key, or an item. -/
def holds? : Value → Value → Option Bool
  | undefined, _ => some false
  | string content, value => some (Text.splitOn? value.text content).isSome
  | list items, value => some (items.any (equal · value))
  | map entries, string key => some (entries.any (·.1 == key))
  | map _, _ => some false
  | loop .., _ => some false
  | _, _ => Option.none

/-- Whole numbers are limited to 128 bits. -/
def integer? (n : Int) : Option Value :=
  if Decimal.isSigned 128 n then some (integer n) else Option.none

/-- A sum, or two texts or lists joined. -/
def add? : Value → Value → Option Value
  | list left, list right => some (list (left ++ right))
  | string left, string right => some (string (left ++ right))
  | left, right =>
    match pair? left right with
    | some (.integers left right) => integer? (left + right)
    | some (.reals left right) => some (real (left + right))
    | Option.none => Option.none

/-- A difference. -/
def subtract? (left right : Value) : Option Value :=
  match pair? left right with
  | some (.integers left right) => integer? (left - right)
  | some (.reals left right) => some (real (left - right))
  | Option.none => Option.none

/-- How often something is repeated. -/
def times? (value : Value) : Option Nat :=
  match value.asInteger? with
  | some n => if 0 ≤ n then some n.toNat else Option.none
  | Option.none => Option.none

/-- A product, or a text or a list repeated. -/
def multiply? : Value → Value → Option Value
  | string content, count => count.times?.map fun n => string (List.replicate n content).flatten
  | count, string content => count.times?.map fun n => string (List.replicate n content).flatten
  | list items, count => count.times?.map fun n => list (List.replicate n items).flatten
  | count, list items => count.times?.map fun n => list (List.replicate n items).flatten
  | left, right =>
    match pair? left right with
    | some (.integers left right) => integer? (left * right)
    | some (.reals left right) => some (real (left * right))
    | Option.none => Option.none

/-- A quotient, which is always floating. -/
def divide? (left right : Value) : Option Value :=
  match pair? left right with
  | some (.integers left right) => some (real (floatOfInt left / floatOfInt right))
  | some (.reals left right) => some (real (left / right))
  | Option.none => Option.none

/-- A whole quotient such that the remainder is not negative. -/
def quotient? (left right : Value) : Option Value :=
  match pair? left right with
  | some (.integers left right) => if right = 0 then Option.none else integer? (left.ediv right)
  | some (.reals left right) => some (real (euclidean left right))
  | Option.none => Option.none
where
  /-- The quotient toward zero, mended where it leaves a negative remainder. -/
  euclidean (left right : Float) : Float :=
    let ratio := left / right
    let whole := if ratio < 0 then ratio.ceil else ratio.floor
    if left - whole * right < 0 then (if 0 < right then whole - 1 else whole + 1) else whole

/-- The remainder of a whole quotient. -/
def remainder? (left right : Value) : Option Value :=
  match pair? left right with
  | some (.integers left right) => if right = 0 then Option.none else integer? (left.emod right)
  | some (.reals left right) =>
    let ratio := left / right
    let whole := if ratio < 0 then ratio.ceil else ratio.floor
    some (real (left - whole * right))
  | Option.none => Option.none

/-- A power. -/
def power? (left right : Value) : Option Value :=
  match pair? left right with
  | some (.integers left right) =>
    if 0 ≤ right ∧ (right ≤ 127 ∨ left.natAbs ≤ 1) then
      integer? (left.pow (if right ≤ 127 then right.toNat else right.toNat % 2 + 2))
    else Option.none
  | some (.reals left right) => some (real (left ^ right))
  | Option.none => Option.none

/-- The opposite of a number. -/
def negate? : Value → Option Value
  | integer n => integer? (-n)
  | real value => some (real (-value))
  | _ => Option.none

end Value

end Infill.Engine
