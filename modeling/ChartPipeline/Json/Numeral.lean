import ChartPipeline.Json.Document

/-!
# Numerals in JSON text

An integer that fits 64 bits is read as it stands. Any other numeral becomes a double: its digits
are gathered as long as they fit 64 bits, later digits only move the point, and the result is
scaled by one rounded power of ten. Values beyond the largest double cannot be read.
-/

namespace ChartPipeline.Json

structure Numeral where
  negative : Bool
  whole : List Char
  fraction : Option (List Char)
  /-- Whether the exponent is negative, and its digits. -/
  exponent : Option (Bool × List Char)

/-- Digits gathered so far, to be scaled by a power of ten. -/
structure Significand where
  digits : Nat
  exponent : Int
  /-- A digit did not fit any more. -/
  full : Bool

def digitValue (c : Char) : Nat := c.toNat - 48

def Significand.fits (s : Significand) (c : Char) : Bool :=
  s.digits * 10 + digitValue c < Nat.pow 2 64

/-- A digit before the point; those that do not fit count as zeros. -/
def Significand.addWhole (s : Significand) (c : Char) : Significand :=
  if !s.full && s.fits c then { s with digits := s.digits * 10 + digitValue c }
  else { s with exponent := s.exponent + 1, full := true }

/-- A digit behind the point; from the first that does not fit they are dropped. -/
def Significand.addFraction (s : Significand) (c : Char) : Significand :=
  if !s.full && s.fits c then
    { s with digits := s.digits * 10 + digitValue c, exponent := s.exponent - 1 }
  else { s with full := true }

def digitsValue (digits : List Char) : Nat := digits.foldl (fun n c => n * 10 + digitValue c) 0

def powerOfTen (n : Nat) : Float := Float.ofScientific 1 false n

/-- `f * 10 ^ e`, unless it is beyond the largest double. -/
def scaleByTen (f : Float) (e : Int) : Option Float :=
  if e.natAbs ≤ 308 then
    if 0 ≤ e then
      let scaled := f * powerOfTen e.natAbs
      if scaled.isInf then none else some scaled
    else some (f / powerOfTen e.natAbs)
  else if f == 0.0 then some f
  else if 0 < e then none
  else scaleByTen (f / powerOfTen 308) (e + 308)
termination_by e.natAbs

def Numeral.value (n : Numeral) : Option Number :=
  let whole := n.whole.foldl Significand.addWhole ⟨0, 0, false⟩
  if n.fraction.isNone && n.exponent.isNone && !whole.full &&
      (!n.negative || (0 < whole.digits && whole.digits ≤ Nat.pow 2 63)) then
    some (.integer (if n.negative then -(whole.digits : Int) else whole.digits))
  else
    let all := (n.fraction.getD []).foldl Significand.addFraction { whole with full := false }
    let shift : Int := match n.exponent with
      | none => 0
      | some (negative, digits) =>
        if negative then -(digitsValue digits : Int) else digitsValue digits
    (scaleByTen (Float.ofNat all.digits) (all.exponent + shift)).map fun f =>
      .float (if n.negative then -f else f)

/-- Where a digit is missing: a numeral that is cut off is truncated for a reader, and malformed
for one who steps over it. -/
def missingDigit (rest : List Char) : Fault × Fault :=
  if rest.isEmpty then (.truncated, .malformed) else (.malformed, .malformed)

def scanSign : List Char → Bool × List Char
  | '-' :: rest => (true, rest)
  | '+' :: rest => (false, rest)
  | rest => (false, rest)

def scanExponent : List Char → Except (Fault × Fault) (Option (Bool × List Char)) × List Char
  | [] => (.ok none, [])
  | c :: rest =>
    if c = 'e' || c = 'E' then
      let (negative, unsigned) := scanSign rest
      let digits := unsigned.takeWhile Char.isDigit
      let behind := unsigned.dropWhile Char.isDigit
      if digits.isEmpty then (.error (missingDigit behind), behind)
      else (.ok (some (negative, digits)), behind)
    else (.ok none, c :: rest)

def scanFraction (negative : Bool) (whole : List Char) :
    List Char → Except (Fault × Fault) Numeral × List Char
  | '.' :: rest =>
    let digits := rest.takeWhile Char.isDigit
    let behind := rest.dropWhile Char.isDigit
    if digits.isEmpty then (.error (missingDigit behind), behind)
    else
      let (exponent, rest) := scanExponent behind
      ((fun e => ⟨negative, whole, some digits, e⟩) <$> exponent, rest)
  | rest =>
    let (exponent, rest) := scanExponent rest
    ((fun e => ⟨negative, whole, none, e⟩) <$> exponent, rest)

def scanWhole (negative : Bool) (behind : List Char) :
    List Char → Except (Fault × Fault) Numeral × List Char
  | [] => (.error (missingDigit behind), behind)
  | '0' :: _ :: _ => (.error (.malformed, .malformed), behind)
  | whole => scanFraction negative whole behind

/-- Scans a numeral whose first character, a minus sign or a digit, is already taken off. -/
def scanNumeral (first : Char) (rest : List Char) :
    Except (Fault × Fault) Numeral × List Char :=
  let digits := rest.takeWhile Char.isDigit
  scanWhole (first = '-') (rest.dropWhile Char.isDigit)
    (if first = '-' then digits else first :: digits)

theorem length_dropWhile_le {α : Type} (p : α → Bool) (s : List α) :
    (s.dropWhile p).length ≤ s.length :=
  (List.dropWhile_sublist p).length_le

theorem length_scanSign_le (s : List Char) : (scanSign s).2.length ≤ s.length := by
  unfold scanSign
  split <;> simp

theorem length_scanExponent_le (s : List Char) : (scanExponent s).2.length ≤ s.length := by
  unfold scanExponent
  split
  · simp
  · rename_i c rest
    have := length_scanSign_le rest
    have := length_dropWhile_le Char.isDigit (scanSign rest).2
    grind

theorem length_scanFraction_le (negative : Bool) (whole s : List Char) :
    (scanFraction negative whole s).2.length ≤ s.length := by
  unfold scanFraction
  split
  · rename_i rest
    have := length_dropWhile_le Char.isDigit rest
    have := length_scanExponent_le (rest.dropWhile Char.isDigit)
    grind
  · exact length_scanExponent_le _

theorem length_scanWhole_le (negative : Bool) (behind whole : List Char) :
    (scanWhole negative behind whole).2.length ≤ behind.length := by
  unfold scanWhole
  split
  · exact Nat.le_refl _
  · exact Nat.le_refl _
  · exact length_scanFraction_le _ _ _

theorem length_scanNumeral_le (first : Char) (rest : List Char) :
    (scanNumeral first rest).2.length ≤ rest.length :=
  Nat.le_trans (length_scanWhole_le _ _ _) (length_dropWhile_le _ _)

end ChartPipeline.Json
