/-!
Texts between double quotes. Quotes and backslashes are written behind a
backslash, line ends and tabs as letters behind one, and characters that show
nothing by their number.
-/
namespace Infill.Text

/-- Code points that show nothing of their own, both ends of a range included:
controls, format characters, blanks other than the space, private characters
and noncharacters, and marks that join the character before them. -/
def hiddenRanges : List (Nat × Nat) :=
  [(0x00, 0x1F), (0x7F, 0xA0), (0xAD, 0xAD), (0x0300, 0x036F), (0x0483, 0x0489),
    (0x0600, 0x0605), (0x061C, 0x061C), (0x06DD, 0x06DD), (0x1680, 0x1680), (0x180E, 0x180E),
    (0x1AB0, 0x1AFF), (0x1DC0, 0x1DFF), (0x2000, 0x200F), (0x2028, 0x202F), (0x205F, 0x206F),
    (0x20D0, 0x20FF), (0x3000, 0x3000), (0xE000, 0xF8FF), (0xFDD0, 0xFDEF), (0xFE00, 0xFE0F),
    (0xFE20, 0xFE2F), (0xFEFF, 0xFEFF), (0xFFF0, 0xFFFB), (0xFFFE, 0xFFFF), (0xE0000, 0xE0FFF),
    (0xF0000, 0x10FFFF)]

/-- How a character is written between quotes. -/
def quotedChar (c : Char) : List Char :=
  if c = '"' then ['\\', '"']
  else if c = '\\' then ['\\', '\\']
  else if c = '\n' then ['\\', 'n']
  else if c = '\r' then ['\\', 'r']
  else if c = '\t' then ['\\', 't']
  else if c.toNat = 0 then ['\\', '0']
  else if hiddenRanges.any fun (first, last) => first ≤ c.toNat && c.toNat ≤ last then
    ['\\', 'u', '{'] ++ Nat.toDigits 16 c.toNat ++ ['}']
  else [c]

/-- A text between quotes. -/
def quoted (text : List Char) : List Char :=
  '"' :: text.flatMap quotedChar ++ ['"']

end Infill.Text
