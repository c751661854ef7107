import Infill.Tape.Hex
import Infill.Tape.Record
import Infill.Text.Split

/-!
The tape is the text that a template engine is given: every entry of a line as
a record of its pointer, followed by its text. A record stands between two
noncharacters and holds hexadecimal digits only, so an engine copies it with
the text around it, as often as it copies that text.
-/
namespace Infill.Tape

/-- The character in front of a record. -/
def openMark : Char := '\uFDD0'

/-- The character behind a record. -/
def closeMark : Char := '\uFDD1'

/-- Whether a character delimits records. -/
def isMark (c : Char) : Bool :=
  c == openMark || c == closeMark

/-- The record of a pointer. -/
def record (pointer : Pointer) : List Char :=
  openMark :: Hex.encode (Record.pack pointer) ++ [closeMark]

/-- An entry on the tape. Its text must hold no mark. -/
def entry (pointer : Pointer) (text : String) : Except Error (List Char) :=
  match text.toList.find? isMark with
  | some c => .error (.reservedCharacter c.toNat)
  | none => .ok (record pointer ++ text.toList)

/-- The tape of a line. -/
def stringify (line : Line) : Except Error String := do
  let entries ← line.mapM fun (pointer, text) => entry pointer text
  return String.ofList entries.flatten

/-- The pointer and the text of an entry without its opening mark. -/
def parseEntry (text : List Char) : Except TapeFault (Pointer × String) :=
  match Text.splitAt? closeMark text with
  | none => .error .unterminatedRecord
  | some (hex, rest) =>
    if closeMark ∈ rest then .error .recordClosedTwice
    else do
      let pointer ← Record.unpack (← Hex.decode hex)
      return (pointer, String.ofList rest)

/-- The line on a tape, with what is wrong with it. -/
def parseLine (tape : List Char) : Except TapeFault Line :=
  match Text.parts openMark tape with
  | [] => .ok []
  | [] :: entries => entries.mapM parseEntry
  | text :: _ => .error (.textBeforeRecord (String.ofList text))

/-- The line on a tape. -/
def parse (tape : String) : Except Error Line :=
  match parseLine tape.toList with
  | .ok line => .ok line
  | .error fault => .error (.malformedTape fault)

/-- A tape as people read it, with the records between white brackets. -/
def display (line : Line) : String :=
  String.join (line.map fun (pointer, text) => "⟦" ++ pointer.text ++ "⟧" ++ text)

end Infill.Tape
