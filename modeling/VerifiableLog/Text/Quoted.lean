import VerifiableLog.Text.Invisible

/-!
Quoted text for messages. The delimiter and the backslash are escaped by a backslash, the common
control characters have short escapes, and every other invisible character is written as its code
point in lowercase hexadecimal between braces.
-/

namespace VerifiableLog.Text

def codePointEscape (character : Char) : List Char :=
  '\\' :: 'u' :: '\x7b' :: Nat.toDigits 16 character.toNat ++ ['\x7d']

def escape (delimiter character : Char) : List Char :=
  if character = '\x00' then ['\\', '0']
  else if character = '\t' then ['\\', 't']
  else if character = '\r' then ['\\', 'r']
  else if character = '\n' then ['\\', 'n']
  else if character = '\\' || character = delimiter then ['\\', character]
  else if isInvisible character then codePointEscape character
  else [character]

def quoteWith (delimiter : Char) (characters : List Char) : String :=
  String.ofList (delimiter :: characters.flatMap (escape delimiter) ++ [delimiter])

def quote (text : String) : String := quoteWith '"' text.toList

def quoteChar (character : Char) : String := quoteWith '\'' [character]

end VerifiableLog.Text
