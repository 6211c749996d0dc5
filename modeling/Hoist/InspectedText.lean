import Hoist.Combining
import Hoist.Unprintable

namespace Hoist

/-- How a character is shown in a message: what can not be seen as a character of its own is given
by its code point. -/
def inspectedChar (c : Char) : List Char :=
  if c = '"' then ['\\', '"']
  else if c = '\\' then ['\\', '\\']
  else if c = '\n' then ['\\', 'n']
  else if c = '\t' then ['\\', 't']
  else if c = '\r' then ['\\', 'r']
  else if c = '\x00' then ['\\', '0']
  else if isCombining c || isUnprintable c then
    ['\\', 'u', '\x7b'] ++ Nat.toDigits 16 c.toNat ++ ['\x7d']
  else [c]

/-- How a text is shown in a message. -/
def inspectedText (text : String) : String :=
  String.ofList ('"' :: text.toList.flatMap inspectedChar ++ ['"'])

end Hoist
