import Infill.Tagged
import Infill.Template.Tag

/-!
Sorting the text of a template into tags and the text between them while it
arrives in chunks. Only an end that may still become a tag is held back, so a
tag that lies over several chunks is found all the same.
-/
namespace Infill.Template

inductive Token
  /-- Text that the template engine copies. -/
  | text
  /-- A tag, which the template engine consumes. -/
  | terminal
  deriving DecidableEq, Inhabited, Repr

/-- A sorted part of the text. -/
abbrev Event := Token × Tagged

structure Lexer where
  /-- The end of the text that is held back. -/
  buffer : Tagged := .empty
  /-- The events that were not read yet. -/
  events : List Event := []
  isClosed : Bool := false
  deriving Inhabited, Repr

namespace Lexer

/-- A text event, unless there is nothing in it. -/
def textEvent (tagged : Tagged) : List Event :=
  if tagged.isEmpty then [] else [(.text, tagged)]

/-- The events of complete tags from byte `start` on, and the byte behind the
last tag. Points right before a tag belong to the text in front of it. -/
def tagEvents (buffer : Tagged) : (start : Nat) → List (List Char × List Char) →
    Except Error (List Event × Nat)
  | start, [] => .ok ([], start)
  | start, (before, tag) :: tags => do
    let tagStart := start + Text.byteLength before
    let tagStop := tagStart + Text.byteLength tag
    let text ← buffer.slice start tagStart
    let (points, terminal) := (← buffer.slice tagStart tagStop).splitPoints
    let (events, stop) ← tagEvents buffer tagStop tags
    return (textEvent (text.addPoints points) ++ (.terminal, terminal) :: events, stop)

/-- Sort what is in the buffer, holding back what may still become a tag. -/
def process (lexer : Lexer) : Except Error Lexer := do
  let found := scan lexer.buffer.text.toList
  let (events, start) ← tagEvents lexer.buffer 0 found.tags
  let heldStart := start + Text.byteLength found.rest
  if found.held.isEmpty then
    let rest ← lexer.buffer.slice start lexer.buffer.size
    return { lexer with buffer := .empty, events := lexer.events ++ events ++ textEvent rest }
  else
    let rest ← if found.rest.isEmpty then pure [] else
      textEvent <$> lexer.buffer.slice start heldStart
    let held ← lexer.buffer.slice heldStart lexer.buffer.size
    return { lexer with buffer := held, events := lexer.events ++ events ++ rest }

/-- Take in another chunk. A closed lexer takes none. -/
def feed (lexer : Lexer) (chunk : Tagged) : Except Error Lexer :=
  if lexer.isClosed then .error .lexerClosed
  else { lexer with buffer := lexer.buffer ++ chunk }.process

/-- No more chunks will come. -/
def close (lexer : Lexer) : Lexer :=
  { lexer with isClosed := true }

/-- The events since the last reading. Once the lexer is closed, what was held
back is text. -/
def read (lexer : Lexer) : List Event × Lexer :=
  if lexer.isClosed then
    (lexer.events ++ textEvent lexer.buffer, { lexer with buffer := .empty, events := [] })
  else (lexer.events, { lexer with events := [] })

end Lexer

end Infill.Template
