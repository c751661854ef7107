import Infill.Path

/-!
The ways in which filling a document fails. A constructor states the cause;
`message` is its wording and `code` the name under which tools report it. A
message is absent where it would only repeat what a reader of some other
format has to say.
-/
namespace Infill

/-- Why a text is no document, or not only one. -/
inductive XmlFault
  /-- The text breaks a rule of the markup itself. -/
  | malformed
  | multipleRoots
  | unclosedElement
  | noRoot
  deriving DecidableEq, Inhabited, Repr

/-- Why a text is no tape of this document. -/
inductive TapeFault
  | textBeforeRecord (text : String)
  | unterminatedRecord
  | recordClosedTwice
  | oddHex
  | invalidHex (hex : String)
  | unknownVersion (version : Nat)
  | truncatedRecord
  | numberOverflow
  | invalidFlag (flag : Nat)
  | trailingBytes
  | unknownLeaf (index : Nat)
  deriving DecidableEq, Inhabited, Repr

/-- The cause of a failure. -/
inductive Error
  /-- A configuration file could not be read. -/
  | fileAccess
  | xml (fault : XmlFault)
  /-- Text was asked from, or written to, an element that carries none. -/
  | unsupportedElement (tag : String) (supported : List String)
  /-- One tag of the template lies in several atoms. -/
  | splitTerminal (terminal : String) (atoms : List Path)
  /-- A path leaves the tree below `parent`. -/
  | noElement (path : Path) (parent : String) (children : Nat)
  | malformedTape (fault : TapeFault)
  /-- The text holds a character that delimits the records of a tape. -/
  | reservedCharacter (code : Nat)
  | invalidSlice (start stop length : Nat)
  | lexerClosed
  /-- A tape moved between leaves in a way the document does not explain. -/
  | unexpectedMove (source target : Path)
  /-- The template engine refused the template. -/
  | template
  | config
  | contextFile
  | unsupportedContext (extension : String)
  deriving DecidableEq, Inhabited, Repr

def XmlFault.message? : XmlFault → Option String
  | malformed => none
  | multipleRoots => some "multiple root elements"
  | unclosedElement => some "unclosed element at end of input"
  | noRoot => some "document has no root element"

def TapeFault.message : TapeFault → String
  | textBeforeRecord text => s!"text `{text}` before the first record"
  | unterminatedRecord => "unterminated record"
  | recordClosedTwice => "record closed twice"
  | oddHex => "odd number of hex digits"
  | invalidHex hex => s!"invalid hex `{hex}`"
  | unknownVersion version => s!"unknown record version {version}"
  | truncatedRecord => "truncated record"
  | numberOverflow => "varint overflow"
  | invalidFlag flag => s!"invalid constant flag {flag}"
  | trailingBytes => "trailing bytes in record"
  | unknownLeaf index => s!"no leaf with index {index}"

/-- A code point in capital hexadecimal digits, at least four of them. -/
def codePointText (code : Nat) : String :=
  let digits := (Nat.toDigits 16 code).map Char.toUpper
  "U+" ++ String.ofList (List.replicate (4 - digits.length) '0' ++ digits)

namespace Error

/-- The wording of a failure, absent where another format's reader has it. -/
def message? : Error → Option String
  | fileAccess | template | config | contextFile => none
  | xml fault => fault.message?.map ("failed to read or write xml: " ++ ·)
  | unsupportedElement tag _ => some s!"unsupported element `{tag}`"
  | splitTerminal terminal atoms =>
    some ("terminal `" ++ terminal ++ "` is split across different atoms: " ++
      Path.listText atoms)
  | noElement path parent children =>
    some ("no element at " ++ Path.text path ++ ": `" ++ parent ++ "` has " ++
      children.repr ++ " child element(s)")
  | malformedTape fault => some ("malformed tape: " ++ fault.message)
  | reservedCharacter code =>
    some ("document text contains the reserved character " ++ codePointText code)
  | invalidSlice start stop length =>
    some s!"invalid slice {start}..{stop} of a tagged string with length {length}"
  | lexerClosed => some "the lexer is closed and cannot accept more text"
  | unexpectedMove source target =>
    some ("tape moved from " ++ Path.text source ++ " to " ++ Path.text target ++
      " in a way no boundary explains")
  | unsupportedContext extension => some s!"unsupported context file format: `{extension}`"

/-- The name under which a failure is reported to tools. -/
def code : Error → String
  | fileAccess => "docweave::io_error"
  | xml _ => "docweave::xml"
  | unsupportedElement .. => "docweave::unsupported_element"
  | splitTerminal .. => "docweave::terminal_split"
  | noElement .. => "docweave::tree_navigation"
  | malformedTape _ => "docweave::malformed_tape"
  | reservedCharacter _ => "docweave::reserved_character"
  | invalidSlice .. => "docweave::invalid_slice"
  | lexerClosed => "docweave::lexer_closed"
  | unexpectedMove .. => "docweave::unexpected_tape_move"
  | template => "docweave::template_render"
  | config => "docweave::config_parse"
  | contextFile => "docweave::context_file"
  | unsupportedContext _ => "docweave::unsupported_context_format"

/-- What a user can do about a failure, where there is something to say. -/
def help? : Error → Option String
  | unsupportedElement _ supported =>
    some ("supported elements: " ++ ", ".intercalate supported)
  | splitTerminal .. => some "keep each template tag inside a single paragraph of the document"
  | malformedTape _ =>
    some "the rendered template must only copy, repeat or drop pieces of the tape"
  | config => some "check that docweave.toml is valid TOML with an optional [engine] section"
  | unsupportedContext _ => some "supported formats: json, yaml, yml, toml"
  | _ => none

end Error

end Infill
