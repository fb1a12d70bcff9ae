import Pug.Text.Unprintable

/-!
# Quoted texts

Two ways to write any text on one line between double quotes. The *dump* form escapes the quote,
the backslash and whatever does not show, so that a reader sees every character there is. The
*JSON* form escapes only what the format requires.
-/

namespace Pug.Text

/-- The hexadecimal digits of a number, in lower case, without leading zeros. -/
def hexDigits (n : Nat) : List Char :=
  Nat.toDigits 16 n

/-- A character in a dump. -/
def dumpChar (c : Char) : List Char :=
  if c == '\x00' then ['\\', '0']
  else if c == '\t' then ['\\', 't']
  else if c == '\n' then ['\\', 'n']
  else if c == '\r' then ['\\', 'r']
  else if c == '"' then ['\\', '"']
  else if c == '\\' then ['\\', '\\']
  else if isUnprintable c then ['\\', 'u', '\x7b'] ++ hexDigits c.toNat ++ ['\x7d']
  else [c]

/-- A text in a dump, between quotes. -/
def dumpQuoted (cs : List Char) : List Char :=
  '"' :: (cs.flatMap dumpChar ++ ['"'])

/-- A character in a JSON string; a control without a short form takes four digits. -/
def jsonChar (c : Char) : List Char :=
  if c == '"' then ['\\', '"']
  else if c == '\\' then ['\\', '\\']
  else if c == '\x08' then ['\\', 'b']
  else if c == '\x0c' then ['\\', 'f']
  else if c == '\n' then ['\\', 'n']
  else if c == '\r' then ['\\', 'r']
  else if c == '\t' then ['\\', 't']
  else if c.toNat < 0x10 then ['\\', 'u', '0', '0', '0'] ++ hexDigits c.toNat
  else if c.toNat < 0x20 then ['\\', 'u', '0', '0'] ++ hexDigits c.toNat
  else [c]

/-- A JSON string, between quotes. -/
def jsonQuoted (cs : List Char) : List Char :=
  '"' :: (cs.flatMap jsonChar ++ ['"'])

end Pug.Text
