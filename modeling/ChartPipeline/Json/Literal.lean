import ChartPipeline.Json.Document
import ChartPipeline.Text.Blank

/-!
# String literals in JSON text

A literal is scanned first: its escapes are resolved and the closing quote is found. Only then are
surrogate escapes joined, so a literal with a lone surrogate can be stepped over but not read.
-/

namespace ChartPipeline.Json

/-- A character, or the sixteen-bit unit of a `\u` escape. -/
inductive Piece where
  | char (c : Char)
  | unit (n : Nat)

/-- What was found after an opening quote: the pieces, the fault if there is no proper end, and
the text behind the closing quote. -/
structure Scan where
  pieces : List Piece
  ending : Option Fault
  rest : List Char

def Scan.cons (p : Piece) (s : Scan) : Scan := { s with pieces := p :: s.pieces }

def hexValue (c : Char) : Option Nat :=
  if '0' ≤ c ∧ c ≤ '9' then some (c.toNat - 48)
  else if 'a' ≤ c ∧ c ≤ 'f' then some (c.toNat - 87)
  else if 'A' ≤ c ∧ c ≤ 'F' then some (c.toNat - 55)
  else none

def hexUnit (a b c d : Char) : Option Nat := do
  return (((← hexValue a) * 16 + (← hexValue b)) * 16 + (← hexValue c)) * 16 + (← hexValue d)

def unescape : Char → Option Char
  | '"' => some '"'
  | '\\' => some '\\'
  | '/' => some '/'
  | 'b' => some '\x08'
  | 'f' => some '\x0c'
  | 'n' => some '\n'
  | 'r' => some '\r'
  | 't' => some '\t'
  | _ => none

/-- Scans a literal from behind its opening quote. A `\u` needs four more bytes of text, even if
the quote is among them. -/
def scan : List Char → Scan
  | [] => ⟨[], some .truncated, []⟩
  | '"' :: rest => ⟨[], none, rest⟩
  | ['\\'] => ⟨[], some .truncated, []⟩
  | '\\' :: 'u' :: a :: b :: c :: d :: rest =>
    match hexUnit a b c d with
    | some n => (scan rest).cons (.unit n)
    | none => ⟨[], some .malformed, []⟩
  | '\\' :: 'u' :: rest =>
    ⟨[], some (if (String.ofList rest).utf8ByteSize < 4 then .truncated else .malformed), []⟩
  | '\\' :: c :: rest =>
    match unescape c with
    | some c => (scan rest).cons (.char c)
    | none => ⟨[], some .malformed, []⟩
  | c :: rest => if c.toNat < 32 then ⟨[], some .malformed, []⟩ else (scan rest).cons (.char c)

theorem length_rest_scan_le (s : List Char) : (scan s).rest.length ≤ s.length := by
  fun_induction scan s <;> simp_all [Scan.cons] <;> omega

/-- Joins surrogate pairs. A high surrogate at the very end is excused if the literal was not
closed, because its partner may be what is missing. -/
def joinPieces (closed : Bool) : List Piece → Option (List Char)
  | [] => some []
  | .char c :: rest => (c :: ·) <$> joinPieces closed rest
  | [.unit n] =>
    if n < 0xD800 || 0xDFFF < n then some [Char.ofNat n]
    else if n < 0xDC00 && !closed then some []
    else none
  | .unit n :: .char c :: rest =>
    if n < 0xD800 || 0xDFFF < n then (Char.ofNat n :: c :: ·) <$> joinPieces closed rest
    else none
  | .unit n :: .unit m :: rest =>
    if n < 0xD800 || 0xDFFF < n then (Char.ofNat n :: ·) <$> joinPieces closed (.unit m :: rest)
    else if n < 0xDC00 && 0xDC00 ≤ m && m ≤ 0xDFFF then
      (Char.ofNat (0x10000 + (n - 0xD800) * 0x400 + (m - 0xDC00)) :: ·) <$> joinPieces closed rest
    else none

end ChartPipeline.Json
