import Infill.Decimal.Reader
import Infill.Text.Split

/-!
Character references. A reference is a name between `&` and `;`, either one of
five known names or `#` with the number of a character.
-/
namespace Infill.Xml

/-- The character with a code point. There is none for zero, for surrogates and
behind the last plane. -/
def scalar? (code : Nat) : Option Char :=
  if h : code ≠ 0 ∧ code.isValidChar then some (Char.ofNatAux code h.2) else none

/-- The character that the name of a reference stands for. -/
def referenced? (name : List Char) : Option Char :=
  match name with
  | '#' :: 'x' :: digits => (Decimal.natural? 16 digits).bind scalar?
  | '#' :: digits => (Decimal.natural? 10 digits).bind scalar?
  | _ =>
    if name = "lt".toList then some '<'
    else if name = "gt".toList then some '>'
    else if name = "amp".toList then some '&'
    else if name = "apos".toList then some '\''
    else if name = "quot".toList then some '"'
    else none

/-- Read a reference whose `&` was just passed, and what follows it. -/
def reference? (text : List Char) : Option (Char × List Char) :=
  match text.dropWhile fun c => c != ';' && c != '&' && c != '<' with
  | ';' :: rest =>
    (referenced? (text.takeWhile fun c => c != ';' && c != '&' && c != '<')).map (·, rest)
  | _ => none

theorem length_lt_of_reference? {text rest : List Char} {c : Char}
    (h : reference? text = some (c, rest)) : rest.length < text.length := by
  unfold reference? at h
  split at h
  · rename_i back hBack
    simp only [Option.map_eq_some_iff, Prod.mk.injEq] at h
    obtain ⟨_, _, _, rfl⟩ := h
    have hLength := congrArg List.length hBack
    have := (List.dropWhile_suffix
      (fun c => c != ';' && c != '&' && c != '<') (l := text)).length_le
    rw [List.length_cons] at hLength
    omega
  · simp at h

/-- The value that a written attribute value stands for. -/
def unescape? : List Char → Option (List Char)
  | [] => some []
  | c :: text =>
    if c = '&' then
      match h : reference? text with
      | some (found, rest) =>
        have := length_lt_of_reference? h
        (unescape? rest).map (found :: ·)
      | none => none
    else (unescape? text).map (c :: ·)
termination_by text => text.length

/-- How a character is written in text and in attribute values. -/
def escapeChar (c : Char) : List Char :=
  if c = '<' then "&lt;".toList
  else if c = '>' then "&gt;".toList
  else if c = '&' then "&amp;".toList
  else if c = '\'' then "&apos;".toList
  else if c = '"' then "&quot;".toList
  else [c]

/-- A text written so that none of it reads as markup. -/
def escape (text : List Char) : List Char :=
  text.flatMap escapeChar

end Infill.Xml
