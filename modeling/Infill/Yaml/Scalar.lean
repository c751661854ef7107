import Infill.Data
import Infill.Decimal.Reader
import Infill.Decimal.Width
import Infill.Text.Split

/-!
What plain scalars of YAML texts stand for: nothing, truth values, numbers, or
themselves.
-/
namespace Infill.Yaml

def isNull (text : List Char) : Bool :=
  ["null", "Null", "NULL", "~"].any (·.toList == text)

def boolean? (text : List Char) : Option Bool :=
  if ["true", "True", "TRUE"].any (·.toList == text) then some true
  else if ["false", "False", "FALSE"].any (·.toList == text) then some false
  else none

/-- Whether a text has nothing but digits and begins with a needless zero. Such
a text is no number. -/
def isPadded (text : List Char) : Bool :=
  let digits := (Decimal.sign text).2
  1 < digits.length && digits.head? == some '0' && digits.all Char.isDigit

/-- The size of a whole number, in another base if it says so. -/
def size? (text : List Char) : Option Nat :=
  match text with
  | '0' :: 'x' :: digits => Decimal.natural? 16 digits
  | '0' :: 'o' :: digits => Decimal.natural? 8 digits
  | '0' :: 'b' :: digits => Decimal.natural? 2 digits
  | digits => Decimal.natural? 10 digits

/-- A whole number of at most 128 bits. -/
def whole? (text : List Char) : Option Int :=
  if isPadded text then none
  else
    let (negative, rest) := Decimal.sign text
    (size? rest).bind fun size =>
      let n := if negative then -Int.ofNat size else Int.ofNat size
      if Decimal.isSigned 128 n || Decimal.isUnsigned 128 n then some n else none

/-- Whole numbers have 64 bits, with a sign or without. -/
def integer? (n : Int) : Option Data :=
  if Decimal.isSigned 64 n || Decimal.isUnsigned 64 n then some (.integer n) else none

/-- The data of a floating number. What is not finite has none. -/
def real? (text : List Char) : Option Data :=
  let (negative, unsigned) := Decimal.sign text
  if [".inf", ".Inf", ".INF"].any (·.toList == unsigned) then some .null
  else if [".nan", ".NaN", ".NAN"].any (·.toList == text) then some .null
  else
    (Decimal.magnitude? unsigned).bind fun value =>
      if value.isInf then none else some (.real (if negative then -value else value))

/-- The data of a plain scalar. A number that is too large has none. -/
def plainData? (text : List Char) : Option Data :=
  if text.isEmpty || isNull text then some .null
  else
    match boolean? text, whole? text with
    | some value, _ => some (.boolean value)
    | none, some n => integer? n
    | none, none =>
      if isPadded text then some (.string (String.ofList text))
      else (real? text).or (some (.string (String.ofList text)))

/-- What the tags of the core schema begin with. -/
def coreSpace : String :=
  "tag:yaml.org,2002:"

/-- The data of a scalar. The tags of the core schema ask for a kind; tags
that are local to a document have no data. -/
def scalarData? (tag : Option String) (isPlain : Bool) (text : List Char) : Option Data :=
  match tag with
  | none => if isPlain then plainData? text else some (.string (String.ofList text))
  | some tag =>
    match Text.after? coreSpace.toList tag.toList with
    | some ['b', 'o', 'o', 'l'] => (boolean? text).map .boolean
    | some ['i', 'n', 't'] => (whole? text).bind integer?
    | some ['f', 'l', 'o', 'a', 't'] => real? text
    | some ['n', 'u', 'l', 'l'] => if isNull text then some .null else none
    | _ => if tag.toList.head? = some '!' then none else some (.string (String.ofList text))

end Infill.Yaml
