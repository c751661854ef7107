import Infill.Error
import Infill.Text.Bytes

/-!
Texts that remember where their characters came from. A tagged text carries
spans, each naming a leaf of the document and a part of its text; the lengths
of the spans add up to the length of the text. Lengths and offsets count bytes.
A span of length zero marks a point.
-/
namespace Infill

/-- A part of the text of one leaf. -/
structure Span where
  path : Path
  /-- The element that no tag of a template may leave. -/
  atom : Path
  /-- The length of the whole text of the leaf. -/
  total : Nat
  offset : Nat
  length : Nat
  /-- Whether the part is the whole text of the leaf, as it was. -/
  isConstant : Bool
  deriving DecidableEq, Inhabited, Repr

namespace Span

/-- The whole text of a leaf. -/
def whole (path atom : Path) (total : Nat) : Span :=
  ⟨path, atom, total, 0, total, true⟩

/-- A part of a span. It is constant only if it is all there was. -/
def narrow (span : Span) (skip length : Nat) : Span :=
  { span with
    offset := span.offset + skip
    length := length
    isConstant := span.offset + skip == 0 && length == span.total }

/-- Whether a span marks a point. -/
def isPoint (span : Span) : Bool :=
  span.length == 0

end Span

structure Tagged where
  text : String
  spans : List Span
  deriving DecidableEq, Inhabited, Repr

namespace Tagged

/-- The text without characters and without points. -/
def empty : Tagged :=
  ⟨"", []⟩

/-- The text of a single leaf. -/
def ofLeaf (text : String) (path atom : Path) : Tagged :=
  ⟨text, [.whole path atom (Text.size text)]⟩

/-- The length that spans cover. -/
def covered (spans : List Span) : Nat :=
  spans.foldr (fun span total => span.length + total) 0

/-- A text with its spans, which must cover it. -/
def new (text : String) (spans : List Span) : Except Error Tagged :=
  if covered spans = Text.size text then .ok ⟨text, spans⟩
  else .error (.invalidSlice 0 (covered spans) (Text.size text))

/-- The length in bytes. -/
def size (tagged : Tagged) : Nat :=
  Text.size tagged.text

/-- Whether nothing is left, neither characters nor points. -/
def isEmpty (tagged : Tagged) : Bool :=
  tagged.text.isEmpty && tagged.spans.isEmpty

/-- One text behind another. Neighbouring spans stay apart. -/
def append (left right : Tagged) : Tagged :=
  ⟨left.text ++ right.text, left.spans ++ right.spans⟩

instance : Append Tagged := ⟨append⟩

@[simp] theorem text_append (left right : Tagged) :
    (left ++ right).text = left.text ++ right.text := rfl

@[simp] theorem spans_append (left right : Tagged) :
    (left ++ right).spans = left.spans ++ right.spans := rfl

/-- What a slice from `start` to `stop` keeps of a span that begins at
`cursor` in a text of the given size. A point at `start` belongs to the slice,
one at `stop` only where the text ends there. -/
def keep? (start stop size cursor : Nat) (span : Span) : Option Span :=
  if span.isPoint then
    if (start ≤ cursor ∧ cursor < stop) ∨ (cursor = stop ∧ stop = size) then some span else none
  else
    let low := max cursor start
    let high := min (cursor + span.length) stop
    if high ≤ low then none
    else if low = cursor ∧ high = cursor + span.length then some span
    else some (span.narrow (low - cursor) (high - low))

/-- What a slice keeps of the spans from `cursor` on. -/
def keep (start stop size : Nat) : (cursor : Nat) → List Span → List Span
  | _, [] => []
  | cursor, span :: rest =>
    (keep? start stop size cursor span).toList
      ++ keep start stop size (cursor + span.length) rest

/-- The text between two bytes, with the spans cut at its ends. -/
def slice (tagged : Tagged) (start stop : Nat) : Except Error Tagged :=
  match Text.slice? start stop tagged.text.toList with
  | some text => .ok ⟨String.ofList text, keep start stop tagged.size 0 tagged.spans⟩
  | none => .error (.invalidSlice start stop tagged.size)

/-- The points at the very start, and the text without them. -/
def splitPoints (tagged : Tagged) : List Span × Tagged :=
  (tagged.spans.takeWhile Span.isPoint,
    { tagged with spans := tagged.spans.dropWhile Span.isPoint })

/-- The text with points behind it. -/
def addPoints (tagged : Tagged) (points : List Span) : Tagged :=
  { tagged with spans := tagged.spans ++ points }

/-- Divide characters among spans, each taking the bytes it covers. -/
def divide : List Char → List Span → List (Span × List Char)
  | _, [] => []
  | text, span :: rest =>
    match Text.cut? span.length text with
    | some (front, back) => (span, front) :: divide back rest
    | none => (span, text) :: divide [] rest

/-- The spans of a text, each with its characters. -/
def pieces (tagged : Tagged) : List (Span × List Char) :=
  divide tagged.text.toList tagged.spans

end Tagged

end Infill
