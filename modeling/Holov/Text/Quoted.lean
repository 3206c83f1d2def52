import Holov.Text.Unprintable

namespace Holov

def escapeChar (delimiter c : Char) : List Char :=
  if c = '\x00' then ['\\', '0']
  else if c = '\t' then ['\\', 't']
  else if c = '\r' then ['\\', 'r']
  else if c = '\n' then ['\\', 'n']
  else if c = '\\' || c = delimiter then ['\\', c]
  else if isUnprintable c then ['\\', 'u', '\x7b'] ++ Nat.toDigits 16 c.toNat ++ ['\x7d']
  else [c]

def quotedText (s : String) : String :=
  String.ofList (['\x22'] ++ s.toList.flatMap (escapeChar '\x22') ++ ['\x22'])

def quotedChar (c : Char) : String :=
  String.ofList (['\x27'] ++ escapeChar '\x27' c ++ ['\x27'])

end Holov
