import Infill.Flatten
import Infill.Rebuild
import Infill.Tape
import Infill.Xml.Printer

/-!
Filling one part of a document: its text is flattened, put on a tape, rendered
by a template engine, and the document is rebuilt from what comes back.
-/
namespace Infill.Part

open Infill.Xml

/-- What a template engine does with the text of a template. -/
abbrev Engine := String → Except Error String

/-- The line of a document and whether it is a template. -/
def inspect (format : Format) (source : String) : Except Error (Content × Line) := do
  flatten format (← Document.parse source).root

/-- Render the line of a document by an engine. -/
def renderLine (engine : Engine) (line : Line) : Except Error Line := do
  Tape.parse (← engine (← Tape.stringify line))

/-- Render a part. One without any tag comes back as it is. -/
def render (engine : Engine) (format : Format) (source : String) : Except Error String := do
  let document ← Document.parse source
  let (content, line) ← flatten format document.root
  match content with
  | .plaintext => return source
  | .template =>
    let boundaries ← Boundaries.ofLine document.root line
    let rendered ← renderLine engine line
    let root ← enforce document.root rendered boundaries format
    return { document with root := root }.print

end Infill.Part
