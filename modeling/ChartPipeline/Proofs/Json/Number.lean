import ChartPipeline.Json.Number
import ChartPipeline.Proofs.Decimal.Shortest

/-!
# Numbers can be told by their texts

The text of a double is read back as the value of its decimal (`fractional_body`), which gives the
double. An integer has neither a point nor an exponent, so no text is that of both kinds
(`text_injective`).
-/

namespace ChartPipeline.Json

open Decimal (Scientific shortest isNegative magnitude)

-- ---------------------------------------------------------------------------
-- Reading a positional or scientific text
-- ---------------------------------------------------------------------------

def exponentValue : List Char → Int
  | 'e' :: '-' :: digits => -(Nat.ofDigitChars 10 digits 0 : Int)
  | 'e' :: _ :: digits => Nat.ofDigitChars 10 digits 0
  | _ => 0

def fractionOf : List Char → List Char × List Char
  | '.' :: rest => (rest.takeWhile Char.isDigit, rest.dropWhile Char.isDigit)
  | rest => ([], rest)

def textValue (text : List Char) : ℚ :=
  let behind := fractionOf (text.dropWhile Char.isDigit)
  Nat.ofDigitChars 10 (text.takeWhile Char.isDigit ++ behind.1) 0 *
    10 ^ (exponentValue behind.2 - behind.1.length)

inductive Ending : List Char → Int → Prop
  | none : Ending [] 0
  | plus : (∀ c ∈ digits, c.isDigit = true) →
      Ending ('e' :: '+' :: digits) (Nat.ofDigitChars 10 digits 0)
  | minus : (∀ c ∈ digits, c.isDigit = true) →
      Ending ('e' :: '-' :: digits) (-(Nat.ofDigitChars 10 digits 0 : Int))

/-- Digits with a point or an exponent, or both, and the value that they stand for. -/
inductive Fractional : List Char → ℚ → Prop
  | point : (∀ c ∈ whole, c.isDigit = true) → whole ≠ [] → (∀ c ∈ fraction, c.isDigit = true) →
      Ending tail n → Fractional (whole ++ '.' :: (fraction ++ tail))
        (Nat.ofDigitChars 10 (whole ++ fraction) 0 * 10 ^ (n - fraction.length))
  | whole : (∀ c ∈ whole, c.isDigit = true) → whole ≠ [] → Ending tail n → tail ≠ [] →
      Fractional (whole ++ tail) (Nat.ofDigitChars 10 whole 0 * 10 ^ n)

variable {whole fraction tail digits text : List Char} {s : Scientific} {x y : Float} {n : Int}
  {q : ℚ}

def Stops (p : Char → Bool) (tail : List Char) : Prop := ∀ c ∈ tail.head?, p c = false

theorem span_append {p : Char → Bool} (h : ∀ c ∈ digits, p c = true) (ht : Stops p tail) :
    (digits ++ tail).takeWhile p = digits ∧ (digits ++ tail).dropWhile p = tail := by
  rw [List.takeWhile_append_of_pos h, List.dropWhile_append_of_pos h]
  cases tail with
  | nil => simp
  | cons c tail => simp [ht c rfl]

theorem Ending.stops (h : Ending tail n) : Stops Char.isDigit tail := by
  cases h <;> simp [Stops]

theorem Ending.value (h : Ending tail n) : exponentValue tail = n := by
  cases h <;> rfl

theorem Fractional.value (h : Fractional text q) : textValue text = q := by
  cases h with
  | @point whole fraction tail n hw _ hf ht =>
    have hpoint : Stops Char.isDigit ('.' :: (fraction ++ tail)) := by simp [Stops]
    obtain ⟨h1, h2⟩ := span_append hw hpoint
    obtain ⟨h3, h4⟩ := span_append hf ht.stops
    rw [textValue, h1, h2]
    simp only [fractionOf, h3, h4, ht.value]
  | @whole whole tail n hw _ ht hn =>
    obtain ⟨h1, h2⟩ := span_append hw ht.stops
    have hplain : fractionOf tail = ([], tail) := by
      cases ht with
      | none => exact absurd rfl hn
      | plus => rfl
      | minus => rfl
    rw [textValue, h1, h2, hplain, List.append_nil, ht.value]
    simp

-- ---------------------------------------------------------------------------
-- The characters of numbers
-- ---------------------------------------------------------------------------

def isNumeric (c : Char) : Bool := c.isDigit || c = '-' || c = '+' || c = '.' || c = 'e'

theorem isNumeric_of_isDigit {c : Char} (h : c.isDigit = true) : isNumeric c = true := by
  simp [isNumeric, h]

theorem Ending.isNumeric (h : Ending tail n) : ∀ c ∈ tail, isNumeric c = true := by
  have hdigits {digits : List Char} (h : ∀ c ∈ digits, c.isDigit = true) :
      ∀ c ∈ digits, Json.isNumeric c = true := fun c hc => isNumeric_of_isDigit (h c hc)
  cases h with
  | none => simp
  | plus h => exact List.forall_mem_cons.mpr ⟨rfl, List.forall_mem_cons.mpr ⟨rfl, hdigits h⟩⟩
  | minus h => exact List.forall_mem_cons.mpr ⟨rfl, List.forall_mem_cons.mpr ⟨rfl, hdigits h⟩⟩

theorem Fractional.isNumeric (h : Fractional text q) : ∀ c ∈ text, isNumeric c = true := by
  intro c hc
  cases h with
  | point hw _ hf ht =>
    rcases List.mem_append.mp hc with hc | hc
    · exact isNumeric_of_isDigit (hw c hc)
    rcases List.mem_cons.mp hc with rfl | hc
    · rfl
    rcases List.mem_append.mp hc with hc | hc
    · exact isNumeric_of_isDigit (hf c hc)
    · exact ht.isNumeric c hc
  | whole hw _ ht =>
    rcases List.mem_append.mp hc with hc | hc
    · exact isNumeric_of_isDigit (hw c hc)
    · exact ht.isNumeric c hc

theorem Fractional.head_isDigit (h : Fractional text q) : ∃ c rest, text = c :: rest ∧ c.isDigit = true := by
  have hcut {whole : List Char} (hw : ∀ c ∈ whole, c.isDigit = true) (hn : whole ≠ [])
      (more : List Char) : ∃ c rest, whole ++ more = c :: rest ∧ c.isDigit = true := by
    cases whole with
    | nil => exact absurd rfl hn
    | cons c whole => exact ⟨c, whole ++ more, rfl, hw c (List.mem_cons_self ..)⟩
  cases h with
  | point hw hn => exact hcut hw hn _
  | whole hw hn => exact hcut hw hn _

theorem Fractional.exists_mark (h : Fractional text q) : ∃ c ∈ text, c = '.' ∨ c = 'e' := by
  cases h with
  | point => exact ⟨'.', by simp, .inl rfl⟩
  | whole _ _ ht hn =>
    cases ht with
    | none => exact absurd rfl hn
    | plus => exact ⟨'e', by simp, .inr rfl⟩
    | minus => exact ⟨'e', by simp, .inr rfl⟩

-- ---------------------------------------------------------------------------
-- The text of a double
-- ---------------------------------------------------------------------------

def scientific (digits : List Char) (exponent : Int) : String :=
  String.ofList (digits.take 1) ++
    (if digits.length = 1 then "" else "." ++ String.ofList (digits.drop 1)) ++
    (if 0 ≤ exponent then "e+" else "e-") ++ Nat.repr exponent.natAbs

def body (s : Scientific) : String :=
  let digits := Nat.toDigits 10 s.coefficient
  let point : Int := digits.length + s.exponent
  if s.coefficient = 0 then "0.0"
  else if -5 < point ∧ point ≤ 16 then
    s.positional ++ (if 0 ≤ s.exponent then ".0" else "")
  else scientific digits (point - 1)

theorem floatText_eq (x : Float) : floatText x =
    if isNegative x then "-" ++ body (shortest .even x) else body (shortest .even x) := rfl

theorem isDigit_toDigits (n : Nat) : ∀ c ∈ Nat.toDigits 10 n, c.isDigit = true := fun _ hc =>
  Nat.isDigit_of_mem_toDigits (by decide) (by decide) hc

theorem isDigit_zeros (n : Nat) : ∀ c ∈ List.replicate n '0', c.isDigit = true := by
  intro c hc
  rw [List.eq_of_mem_replicate hc]
  rfl

theorem isDigit_append {first last : List Char} (hf : ∀ c ∈ first, c.isDigit = true)
    (hl : ∀ c ∈ last, c.isDigit = true) : ∀ c ∈ first ++ last, c.isDigit = true := fun c hc =>
  (List.mem_append.mp hc).elim (hf c) (hl c)

theorem ofDigitChars_zeros (digits : List Char) (k : Nat) :
    Nat.ofDigitChars 10 (digits ++ List.replicate k '0') 0 =
      10 ^ k * Nat.ofDigitChars 10 digits 0 := by
  rw [Nat.ofDigitChars_append, Nat.ofDigitChars_replicate_zero]

theorem zeros_ofDigitChars (digits : List Char) (k : Nat) :
    Nat.ofDigitChars 10 (List.replicate k '0' ++ digits) 0 = Nat.ofDigitChars 10 digits 0 := by
  rw [Nat.ofDigitChars_append, Nat.ofDigitChars_replicate_zero, Nat.mul_zero]

theorem fractional_positional (s : Scientific) :
    Fractional (s.positional ++ (if 0 ≤ s.exponent then ".0" else "")).toList s.value := by
  obtain ⟨digits, hdigits⟩ : ∃ digits, Nat.toDigits 10 s.coefficient = digits := ⟨_, rfl⟩
  have hd : ∀ c ∈ digits, c.isDigit = true := hdigits ▸ isDigit_toDigits s.coefficient
  have hne : digits ≠ [] := hdigits ▸ Nat.toDigits_ne_nil
  have hread : Nat.ofDigitChars 10 digits 0 = s.coefficient :=
    hdigits ▸ Nat.ofDigitChars_ten_toDigits
  simp only [Scientific.positional, Scientific.value, hdigits]
  by_cases he : 0 ≤ s.exponent
  · -- zeros, and one more behind the point
    obtain ⟨k, hk⟩ := Int.eq_ofNat_of_zero_le he
    have h := Fractional.point (isDigit_append hd (isDigit_zeros k)) (by simp [hne])
      (isDigit_zeros 1) .none
    have hvalue : (Nat.ofDigitChars 10 (digits ++ List.replicate k '0' ++ List.replicate 1 '0') 0 *
        10 ^ (0 - ((List.replicate 1 '0').length : Int)) : ℚ) = s.coefficient * 10 ^ s.exponent := by
      rw [ofDigitChars_zeros, ofDigitChars_zeros, hread, hk, List.length_replicate]
      push_cast
      rw [zpow_natCast, zpow_neg_one]
      ring
    rw [hvalue] at h
    simpa [he, hk] using h
  · obtain ⟨k, hk⟩ : ∃ k : Nat, s.exponent = -k := ⟨(-s.exponent).toNat, by omega⟩
    have hplaces : (-s.exponent).toNat = k := by omega
    simp only [hplaces, if_neg he]
    split
    · -- the point is among the digits
      rename_i hlt
      obtain ⟨n, hn⟩ : ∃ n, digits.length - k = n := ⟨_, rfl⟩
      have h := Fractional.point (fun c hc => hd c (List.mem_of_mem_take (i := n) hc))
        (by simp [hne]; omega) (fun c hc => hd c (List.mem_of_mem_drop (i := n) hc)) .none
      have hlength : (0 : Int) - (digits.drop n).length = s.exponent := by
        rw [List.length_drop]
        omega
      rw [List.take_append_drop, hread, hlength] at h
      simpa [hn] using h
    · -- zeros between the point and the digits
      rename_i hlt
      obtain ⟨n, hn⟩ : ∃ n, k - digits.length = n := ⟨_, rfl⟩
      have h := Fractional.point (isDigit_zeros 1) (by simp)
        (isDigit_append (isDigit_zeros n) hd) .none
      have hlength : (0 : Int) - (List.replicate n '0' ++ digits).length = s.exponent := by
        rw [List.length_append, List.length_replicate]
        omega
      rw [zeros_ofDigitChars, zeros_ofDigitChars, hread, hlength] at h
      simpa [hn] using h

theorem ending_repr (n : Int) :
    Ending ((if 0 ≤ n then "e+" else "e-") ++ Nat.repr n.natAbs).toList n := by
  have hread : Nat.ofDigitChars 10 (Nat.toDigits 10 n.natAbs) 0 = n.natAbs :=
    Nat.ofDigitChars_ten_toDigits
  have hd := isDigit_toDigits n.natAbs
  split
  · have h := Ending.plus hd
    rw [hread, show (n.natAbs : Int) = n by omega] at h
    simpa [Nat.repr] using h
  · have h := Ending.minus hd
    rw [hread, show -(n.natAbs : Int) = n by omega] at h
    simpa [Nat.repr] using h

theorem fractional_scientific (hd : ∀ c ∈ digits, c.isDigit = true) (hne : digits ≠ [])
    (n : Int) : Fractional (scientific digits n).toList
      (Nat.ofDigitChars 10 digits 0 * 10 ^ (n + 1 - digits.length)) := by
  obtain ⟨c, digits, rfl⟩ := List.exists_cons_of_ne_nil hne
  obtain ⟨hc, hd⟩ := List.forall_mem_cons.mp hd
  have hone : ∀ x ∈ [c], x.isDigit = true := by simpa using hc
  have hending := ending_repr n
  rw [scientific, String.toList_append, String.toList_append, List.append_assoc,
    ← String.toList_append]
  cases digits with
  | nil =>
    have h := Fractional.whole hone (by simp) hending (by split <;> simp)
    simpa using h
  | cons c' digits =>
    have h := Fractional.point hone (by simp) hd hending
    have hexponent : n + 1 - (c :: c' :: digits).length = n - (c' :: digits).length := by
      rw [List.length_cons]
      omega
    rw [hexponent]
    simpa using h

theorem fractional_body (s : Scientific) : Fractional (body s).toList s.value := by
  unfold body
  split
  · rename_i hzero
    have h := Fractional.point (isDigit_zeros 1) (by simp) (isDigit_zeros 1) .none
    have hvalue : Nat.ofDigitChars 10 (List.replicate 1 '0' ++ List.replicate 1 '0') 0 = 0 := rfl
    rw [hvalue] at h
    simpa [Scientific.value, hzero] using h
  · dsimp only
    split
    · exact fractional_positional s
    · obtain ⟨n, hn⟩ : ∃ n : Int, (Nat.toDigits 10 s.coefficient).length + s.exponent - 1 = n :=
        ⟨_, rfl⟩
      have h := fractional_scientific (isDigit_toDigits s.coefficient) Nat.toDigits_ne_nil n
      have hexponent : n + 1 - (Nat.toDigits 10 s.coefficient).length = s.exponent := by omega
      rw [Nat.ofDigitChars_ten_toDigits, hexponent] at h
      rwa [hn]

-- ---------------------------------------------------------------------------
-- The text of a number
-- ---------------------------------------------------------------------------

def Number.isNegative : Number → Bool
  | .integer n => n < 0
  | .float x => Decimal.isNegative x

def Number.unsigned : Number → List Char
  | .integer n => Nat.toDigits 10 n.natAbs
  | .float x => (body (shortest .even x)).toList

theorem text_eq (v : Number) :
    v.text.toList = (if v.isNegative then ['-'] else []) ++ v.unsigned := by
  cases v with
  | integer n =>
    unfold Number.text Number.isNegative Number.unsigned
    by_cases h : n < 0 <;> simp [h, Nat.repr]
  | float x =>
    rw [Number.text, floatText_eq]
    unfold Number.isNegative Number.unsigned
    by_cases h : isNegative x = true <;> simp [h]

theorem unsigned_head (v : Number) : ∃ c rest, v.unsigned = c :: rest ∧ c.isDigit = true := by
  cases v with
  | integer n =>
    obtain ⟨c, rest, h⟩ := List.exists_cons_of_ne_nil (Nat.toDigits_ne_nil (b := 10) (n := n.natAbs))
    exact ⟨c, rest, h, isDigit_toDigits n.natAbs c (h ▸ List.mem_cons_self)⟩
  | float x => exact (fractional_body _).head_isDigit

theorem isNumeric_text (v : Number) : ∀ c ∈ v.text.toList, isNumeric c = true := by
  intro c hc
  rw [text_eq] at hc
  rcases List.mem_append.mp hc with hc | hc
  · split at hc
    · rw [List.mem_singleton.mp hc]
      rfl
    · cases hc
  · cases v with
    | integer n => exact isNumeric_of_isDigit (isDigit_toDigits _ c hc)
    | float x => exact (fractional_body _).isNumeric c hc

theorem text_head (v : Number) : ∃ c rest, v.text.toList = c :: rest ∧ isNumeric c = true := by
  obtain ⟨c, rest, hrest, -⟩ := unsigned_head v
  have hne : v.text.toList ≠ [] := by simp [text_eq, hrest]
  obtain ⟨c, rest, h⟩ := List.exists_cons_of_ne_nil hne
  exact ⟨c, rest, h, isNumeric_text v c (h ▸ List.mem_cons_self)⟩

theorem sign_eq {v w : Number} (h : v.text.toList = w.text.toList) :
    v.isNegative = w.isNegative ∧ v.unsigned = w.unsigned := by
  obtain ⟨c, rest, hv, hc⟩ := unsigned_head v
  obtain ⟨c', rest', hw, hc'⟩ := unsigned_head w
  rw [text_eq, text_eq, hv, hw] at h
  rw [hv, hw]
  cases hs : v.isNegative <;> cases hs' : w.isNegative <;> simp [hs, hs'] at h ⊢
  · exact h
  · rw [h.1] at hc
    exact absurd hc (by decide)
  · rw [← h.1] at hc'
    exact absurd hc' (by decide)
  · exact h

theorem text_injective {v w : Number} (h : v.text = w.text) : v = w := by
  obtain ⟨hsign, htext⟩ := sign_eq (congrArg String.toList h)
  -- a mark tells the two kinds apart
  have hkinds {n : Int} {x : Float} : Number.unsigned (.integer n) ≠ Number.unsigned (.float x) := by
    intro heq
    obtain ⟨c, hc, hmark⟩ := (fractional_body (shortest .even x)).exists_mark
    have hdigit : c.isDigit = true := isDigit_toDigits n.natAbs c (heq ▸ hc : c ∈ Number.unsigned (.integer n))
    rcases hmark with rfl | rfl <;> exact absurd hdigit (by decide)
  cases v with
  | integer n =>
    cases w with
    | integer k =>
      have habs := congrArg (Nat.ofDigitChars 10 · 0) htext
      simp only [Number.unsigned, Nat.ofDigitChars_ten_toDigits] at habs
      simp only [Number.isNegative, decide_eq_decide] at hsign
      rw [Number.integer.injEq]
      omega
    | float x => exact absurd htext hkinds
  | float x =>
    cases w with
    | integer k => exact absurd htext.symm hkinds
    | float y =>
      have hvalue : (shortest .even x).value = (shortest .even y).value := by
        rw [← (fractional_body (shortest .even x)).value, ← (fractional_body (shortest .even y)).value]
        exact congrArg textValue htext
      rw [Decimal.eq_of_magnitude_eq hsign (Decimal.magnitude_eq_of_value_eq hvalue)]

end ChartPipeline.Json
