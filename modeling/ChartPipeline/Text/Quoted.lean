/-!
# Quoted text

The literal of a text in JSON and in expressions: between double quotes, with an escape for the
quote, the backslash and every control character, and all else as it is.
-/

namespace ChartPipeline.Text

def hexDigit (n : Nat) : Char :=
  if n < 10 then Char.ofNat (48 + n) else Char.ofNat (87 + n)

/-- A character as it stands inside a literal. -/
def escape (c : Char) : List Char :=
  if c = '"' then ['\\', '"']
  else if c = '\\' then ['\\', '\\']
  else if c = '\x08' then ['\\', 'b']
  else if c = '\t' then ['\\', 't']
  else if c = '\n' then ['\\', 'n']
  else if c = '\x0c' then ['\\', 'f']
  else if c = '\r' then ['\\', 'r']
  else if c.toNat < 32 then ['\\', 'u', '0', '0', hexDigit (c.toNat / 16), hexDigit (c.toNat % 16)]
  else [c]

def escapeAll (s : List Char) : List Char := s.flatMap escape

/-- The literal of a text, character by character. -/
def quoteChars (s : List Char) : List Char := '"' :: escapeAll s ++ ['"']

def quote (s : String) : String := String.ofList (quoteChars s.toList)

end ChartPipeline.Text
