import ChartPipeline.Json.Literal
import ChartPipeline.Json.Numeral

/-!
# Tokens of JSON text

The text is cut into tokens up to its end or up to the first token that is broken.
-/

namespace ChartPipeline.Json

inductive Token where
  | openArray
  | closeArray
  | openObject
  | closeObject
  | comma
  | colon
  /-- A string literal, `none` if its surrogates do not pair up. -/
  | text (s : Option String)
  /-- `null`, a truth value or a number. -/
  | scalar (d : Document)
  /-- A string literal without its end. -/
  | brokenText (onRead onSkip : Fault)
  /-- No token at all. -/
  | broken (onRead onSkip : Fault)

def punctuation? : Char → Option Token
  | '[' => some .openArray
  | ']' => some .closeArray
  | '{' => some .openObject
  | '}' => some .closeObject
  | ',' => some .comma
  | ':' => some .colon
  | _ => none

def literalWord? : Char → Option (List Char × Document)
  | 'n' => some (['u', 'l', 'l'], .null)
  | 't' => some (['r', 'u', 'e'], .bool true)
  | 'f' => some (['a', 'l', 's', 'e'], .bool false)
  | _ => none

def takeLetters : List Char → List Char → Except Fault (List Char)
  | [], rest => .ok rest
  | _ :: _, [] => .error .truncated
  | letter :: letters, c :: rest =>
    if c = letter then takeLetters letters rest else .error .malformed

theorem length_takeLetters_le {letters s rest : List Char} (h : takeLetters letters s = .ok rest) :
    rest.length ≤ s.length := by
  fun_induction takeLetters letters s with
  | case1 => cases h; exact Nat.le_refl _
  | case2 => cases h
  | case3 _ _ _ ih => exact Nat.le_succ_of_le (ih h)
  | case4 => cases h

def Scan.token (s : Scan) : Token :=
  match s.ending with
  | none => .text ((joinPieces true s.pieces).map String.ofList)
  | some fault =>
    .brokenText (if (joinPieces false s.pieces).isSome then fault else .malformed) fault

/-- The document of a numeral, which cannot be read if the number is too large. -/
def Numeral.document (n : Numeral) : Document :=
  match n.value with
  | some x => .number x
  | none => .faulty .malformed none

def tokens : List Char → List Token
  | [] => []
  | c :: rest =>
    if Text.isBlank c then tokens rest
    else match punctuation? c with
    | some token => token :: tokens rest
    | none =>
      if c = '"' then
        match (scan rest).ending with
        | none => (scan rest).token :: tokens (scan rest).rest
        | some _ => [(scan rest).token]
      else if c = '-' || c.isDigit then
        match (scanNumeral c rest).1 with
        | .ok numeral => .scalar numeral.document :: tokens (scanNumeral c rest).2
        | .error (onRead, onSkip) => [.broken onRead onSkip]
      else match literalWord? c with
      | none => [.broken .malformed .malformed]
      | some (letters, d) =>
        match _h : takeLetters letters rest with
        | .ok behind => .scalar d :: tokens behind
        | .error fault => [.broken fault fault]
termination_by s => s.length
decreasing_by
  · simp
  · simp
  · have := length_rest_scan_le rest; simp; omega
  · have := length_scanNumeral_le c rest; simp; omega
  · have := length_takeLetters_le _h; simp; omega

end ChartPipeline.Json
