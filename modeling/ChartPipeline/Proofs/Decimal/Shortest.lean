import ChartPipeline.Decimal.Shortest
import Mathlib.Algebra.Order.Field.Rat
import Mathlib.Algebra.Order.Field.Basic
import Mathlib.Tactic.Ring
import Mathlib.Tactic.NormNum

/-!
# A double can be told by its decimal

The intervals of two doubles have no point in common (`eq_of_contains`), and the shortest decimal
of a double lies in its interval (`contains_shortest`). So doubles of different magnitude have
different decimals (`magnitude_eq_of_value_eq`).
-/

namespace ChartPipeline.Decimal

def Scientific.value (s : Scientific) : ℚ := s.coefficient * 10 ^ s.exponent

def Interval.Contains (i : Interval) (x : ℚ) : Prop :=
  i.low * 2 ^ i.exponent ≤ x ∧ x ≤ i.high * 2 ^ i.exponent ∧
    (i.closed = false → i.low * 2 ^ i.exponent < x ∧ x < i.high * 2 ^ i.exponent)

structure Magnitude.Normal (v : Magnitude) : Prop where
  pos : 0 < v.mantissa
  lt : v.mantissa < 2 ^ 53
  low : -1074 ≤ v.exponent
  high : v.exponent ≤ 972
  full : -1074 < v.exponent → 2 ^ 52 ≤ v.mantissa

variable {v w : Magnitude} {i : Interval} {x : ℚ} {k e : Int} {d u : Nat} {tie : Tie}

-- ---------------------------------------------------------------------------
-- Intervals do not meet
-- ---------------------------------------------------------------------------

/-- Of two magnitudes the upper one lies as a whole above the lower one. Where they touch, one of
them is open. -/
theorem gap (hv : v.Normal) (hw : w.Normal) (he : v.exponent ≤ w.exponent)
    (hm : v.exponent = w.exponent → v.mantissa < w.mantissa) :
    v.interval.high ≤ w.interval.low * 2 ^ (w.exponent - v.exponent).toNat ∧
      (v.interval.high = w.interval.low * 2 ^ (w.exponent - v.exponent).toNat →
        v.interval.closed = false ∨ w.interval.closed = false) := by
  have hvlt := hv.lt
  have hvlow := hv.low
  have hwpos := hw.pos
  have hpow : Nat.pow 2 52 = 2 ^ 52 := rfl
  simp only [Magnitude.interval, hpow]
  rcases he.eq_or_lt with heq | hlt
  · have hmlt := hm heq
    have hfull := hv.full
    rw [heq, sub_self, Int.toNat_zero, pow_zero, mul_one, decide_eq_false_iff_not,
      decide_eq_false_iff_not]
    split <;> omega
  · -- the upper one counts at least twice as much
    obtain ⟨n, hn⟩ : ∃ n, (w.exponent - v.exponent).toNat = n + 1 :=
      ⟨(w.exponent - v.exponent).toNat - 1, by omega⟩
    have hfull := hw.full (lt_of_le_of_lt hvlow hlt)
    have htwice : 1 ≤ 2 ^ n := Nat.one_le_two_pow
    rw [hn, pow_succ 2 n, decide_eq_false_iff_not, decide_eq_false_iff_not]
    generalize 2 ^ n = m at htwice
    have hscale (l : Nat) : l * 2 ≤ l * (m * 2) := Nat.mul_le_mul_left l (by omega)
    split
    · have := hscale (4 * w.mantissa - 1)
      omega
    · have := hscale (4 * w.mantissa - 2)
      omega

theorem eq_of_contains (hv : v.Normal) (hw : w.Normal) (hx : v.interval.Contains x)
    (hx' : w.interval.Contains x) : v = w := by
  -- the lower of the two first
  wlog hle : v.exponent < w.exponent ∨ v.exponent = w.exponent ∧ v.mantissa ≤ w.mantissa
    generalizing v w with h
  · exact (h hw hv hx' hx (by omega)).symm
  by_contra hne
  have hm : v.exponent = w.exponent → v.mantissa < w.mantissa := by
    rintro he
    have hmne : v.mantissa ≠ w.mantissa := fun hm => hne (by cases v; cases w; simp_all)
    omega
  have he : v.exponent ≤ w.exponent := by omega
  obtain ⟨hgap, htouch⟩ := gap hv hw he hm
  -- the same unit for both
  have hunit : (2 : ℚ) ^ w.interval.exponent =
      2 ^ (w.exponent - v.exponent).toNat * 2 ^ v.interval.exponent := by
    rw [← zpow_natCast, ← zpow_add₀ two_ne_zero]
    simp only [Magnitude.interval]
    congr 1
    omega
  have hpos : (0 : ℚ) < 2 ^ v.interval.exponent := zpow_pos two_pos _
  have hgap' : (v.interval.high : ℚ) * 2 ^ v.interval.exponent ≤
      w.interval.low * 2 ^ w.interval.exponent := by
    rw [hunit, ← mul_assoc]
    refine mul_le_mul_of_nonneg_right ?_ hpos.le
    exact_mod_cast hgap
  obtain ⟨-, hhigh, hopen⟩ := hx
  obtain ⟨hlow, -, hopen'⟩ := hx'
  have heq : v.interval.high = w.interval.low * 2 ^ (w.exponent - v.exponent).toNat := by
    have : (v.interval.high : ℚ) * 2 ^ v.interval.exponent =
        w.interval.low * 2 ^ w.interval.exponent := le_antisymm hgap' (hlow.trans hhigh)
    rw [hunit, ← mul_assoc] at this
    exact_mod_cast mul_right_cancel₀ hpos.ne' this
  rcases htouch heq with h | h
  · exact absurd (hlow.trans_lt (hopen h).2) (not_lt.mpr hgap')
  · exact absurd ((hopen' h).1.trans_le hhigh) (not_lt.mpr hgap')

-- ---------------------------------------------------------------------------
-- Points of a grid
-- ---------------------------------------------------------------------------

theorem scaled_le (c : Nat) (hc : 0 < c) {a b : ℚ} {m n : Nat} (ha : a * c = m) (hb : b * c = n) :
    (m ≤ n ↔ a ≤ b) ∧ (m < n ↔ a < b) := by
  have hpos : (0 : ℚ) < c := by exact_mod_cast hc
  constructor
  · rw [← Nat.cast_le (α := ℚ), ← ha, ← hb]
    exact mul_le_mul_iff_left₀ hpos
  · rw [← Nat.cast_lt (α := ℚ), ← ha, ← hb]
    exact mul_lt_mul_iff_left₀ hpos

theorem zpow_mul_toNat (b : ℚ) (hb : b ≠ 0) (k : Int) : b ^ k * b ^ (-k).toNat = b ^ k.toNat := by
  rw [← zpow_natCast, ← zpow_natCast, ← zpow_add₀ hb]
  congr 1
  omega

/-- A factor that makes whole numbers of points and bounds. -/
def common (k e : Int) : Nat := 10 ^ (-k).toNat * 2 ^ (-e).toNat

theorem common_pos (k e : Int) : 0 < common k e :=
  Nat.mul_pos (Nat.pow_pos (by decide)) (Nat.pow_pos (by decide))

theorem point_mul_common (d : Nat) (k e : Int) :
    (d * 10 ^ k : ℚ) * common k e = (d * gridFactor k e : Nat) := by
  have h := zpow_mul_toNat 10 (by norm_num) k
  have hf : gridFactor k e = 10 ^ k.toNat * 2 ^ (-e).toNat := rfl
  rw [hf, common]
  push_cast
  rw [← h]
  ring

theorem bound_mul_common (u : Nat) (k e : Int) :
    (u * 2 ^ e : ℚ) * common k e = (u * valueFactor k e : Nat) := by
  have h := zpow_mul_toNat 2 (by norm_num) e
  have hf : valueFactor k e = 10 ^ (-k).toNat * 2 ^ e.toNat := rfl
  rw [hf, common]
  push_cast
  rw [← h]
  ring

theorem contains_of_holds (h : i.holds k d = true) : i.Contains (d * 10 ^ k) := by
  have hlow := scaled_le _ (common_pos k i.exponent) (bound_mul_common i.low k i.exponent)
    (point_mul_common d k i.exponent)
  have hhigh := scaled_le _ (common_pos k i.exponent) (point_mul_common d k i.exponent)
    (bound_mul_common i.high k i.exponent)
  unfold Interval.holds at h
  unfold Interval.Contains
  split at h
  · rename_i hc
    simp only [Bool.and_eq_true, decide_eq_true_eq] at h
    refine ⟨hlow.1.mp h.1, hhigh.1.mp h.2, fun hopen => ?_⟩
    rw [hc] at hopen
    cases hopen
  · simp only [Bool.and_eq_true, decide_eq_true_eq] at h
    have h1 := hlow.2.mp h.1
    have h2 := hhigh.2.mp h.2
    exact ⟨h1.le, h2.le, fun _ => ⟨h1, h2⟩⟩

theorem holds_of_onGrid (h : i.onGrid tie k = some d) : i.holds k d = true := by
  unfold Interval.onGrid at h
  simp only at h
  split at h
  · cases h
  · rename_i hb _
    cases h
    exact hb
  · rename_i _ hb
    cases h
    exact hb
  · rename_i hbelow habove
    split at h
    · cases h
      exact hbelow
    · split at h
      · cases h
        exact habove
      · cases tie with
        | up =>
          cases h
          exact habove
        | even =>
          simp only [Option.some.injEq] at h
          split at h
          · exact h ▸ hbelow
          · exact h ▸ habove

theorem holds_of_coarsest {fuel : Nat} {s : Scientific} (h : i.coarsest tie fuel k = some s) :
    i.holds s.exponent s.coefficient = true := by
  induction fuel generalizing k with
  | zero => cases h
  | succ fuel ih =>
    unfold Interval.coarsest at h
    split at h
    · cases h
      exact holds_of_onGrid ‹_›
    · exact ih h

-- ---------------------------------------------------------------------------
-- A grid that is fine enough
-- ---------------------------------------------------------------------------

/-- A grid with less than half the width of the interval between its points has one above the
double. -/
theorem onGrid_isSome (hw : i.high = i.value + 2) (hl : i.low ≤ i.value)
    (h : gridFactor k i.exponent < 2 * valueFactor k i.exponent) :
    (i.onGrid tie k).isSome = true := by
  have hpos : 0 < gridFactor k i.exponent := Nat.mul_pos (Nat.pow_pos (by decide)) (Nat.pow_pos (by decide))
  have habove : i.holds k (i.value * valueFactor k i.exponent / gridFactor k i.exponent + 1) = true := by
    have hlow : i.low * valueFactor k i.exponent ≤ i.value * valueFactor k i.exponent :=
      Nat.mul_le_mul_right _ hl
    have hhigh : i.high * valueFactor k i.exponent =
        i.value * valueFactor k i.exponent + 2 * valueFactor k i.exponent := by
      rw [hw, Nat.add_mul]
    have hnext := Nat.lt_div_mul_add (a := i.value * valueFactor k i.exponent) hpos
    have hbelow := Nat.div_mul_le_self (i.value * valueFactor k i.exponent) (gridFactor k i.exponent)
    have hpoint : (i.value * valueFactor k i.exponent / gridFactor k i.exponent + 1) *
        gridFactor k i.exponent = i.value * valueFactor k i.exponent / gridFactor k i.exponent *
          gridFactor k i.exponent + gridFactor k i.exponent := Nat.succ_mul _ _
    unfold Interval.holds
    simp only [hpoint]
    split <;> simp only [Bool.and_eq_true, decide_eq_true_eq] <;> omega
  unfold Interval.onGrid
  simp only [habove]
  split
  · rename_i h
    cases h
  · rfl
  · rfl
  · split
    · rfl
    · split
      · rfl
      · cases tie <;> rfl

theorem coarsest_isSome {fuel : Nat} (n : Nat) (hn : n < fuel)
    (h : (i.onGrid tie (k - n)).isSome = true) : (i.coarsest tie fuel k).isSome = true := by
  induction fuel generalizing k n with
  | zero => omega
  | succ fuel ih =>
    unfold Interval.coarsest
    split
    · rfl
    · rename_i hnone
      cases n with
      | zero => simp [hnone] at h
      | succ n =>
        refine ih n (by omega) ?_
        rwa [show k - 1 - (n : Int) = k - ((n + 1 : Nat) : Int) by omega]

theorem ten_pow_lt {m n : Nat} (h : 10 * n < 3 * m) : 10 ^ n < 2 ^ m := by
  refine (Nat.pow_lt_pow_iff_left (n := 3) (by decide)).mp ?_
  calc (10 ^ n) ^ 3 = (10 ^ 3) ^ n := by rw [← pow_mul, ← pow_mul, mul_comm]
    _ ≤ (2 ^ 10) ^ n := Nat.pow_le_pow_left (by decide) n
    _ = 2 ^ (10 * n) := (pow_mul ..).symm
    _ < 2 ^ (m * 3) := Nat.pow_lt_pow_right (by decide) (by omega)
    _ = (2 ^ m) ^ 3 := pow_mul ..

theorem two_pow_le {m n : Nat} (h : 28 * m ≤ 93 * n) : 2 ^ m ≤ 10 ^ n := by
  refine (Nat.pow_le_pow_iff_left (n := 28) (by decide)).mp ?_
  calc (2 ^ m) ^ 28 = 2 ^ (28 * m) := by rw [← pow_mul, mul_comm]
    _ ≤ 2 ^ (93 * n) := Nat.pow_le_pow_right (by decide) h
    _ = (2 ^ 93) ^ n := pow_mul ..
    _ ≤ (10 ^ 28) ^ n := Nat.pow_le_pow_left (by decide) n
    _ = (10 ^ n) ^ 28 := by rw [← pow_mul, ← pow_mul, mul_comm]

/-- Twenty-four steps below a power of ten above the double, the grid is fine enough. -/
theorem gridFactor_lt (hv : v.Normal) :
    gridFactor (v.decimalBound - 24) (v.exponent - 2) <
      2 * valueFactor (v.decimalBound - 24) (v.exponent - 2) := by
  have hlog : v.mantissa.log2 ≤ 52 := by
    have := (Nat.log2_lt hv.pos.ne').mpr hv.lt
    omega
  have hlow := hv.low
  have hhigh := hv.high
  obtain ⟨k, hk⟩ : ∃ k, v.decimalBound - 24 = k := ⟨_, rfl⟩
  have hbound : 100000 * (k + 23) ≤ 30103 * (v.exponent + 53) := by
    rw [← hk, Magnitude.decimalBound]
    omega
  rw [hk]
  obtain ⟨e, he⟩ : ∃ e, v.exponent = e := ⟨_, rfl⟩
  rw [he] at hbound hlow hhigh ⊢
  show 10 ^ k.toNat * 2 ^ (-(e - 2)).toNat < 2 * (10 ^ (-k).toNat * 2 ^ (e - 2).toNat)
  rcases le_or_gt 0 k with hk0 | hk0
  · -- both are whole
    have hpow : 10 ^ k.toNat < 2 ^ ((e - 2).toNat + 1) := ten_pow_lt (by omega)
    rw [show (-(e - 2)).toNat = 0 by omega, show (-k).toNat = 0 by omega, pow_zero, pow_zero]
    rw [pow_succ] at hpow
    omega
  · -- the power of two is at most the power of ten, with both below the point
    have hpow : 2 ^ (-(e - 2)).toNat ≤ 10 ^ (-k).toNat := two_pow_le (by omega)
    have htwo : 1 ≤ 2 ^ (e - 2).toNat := Nat.one_le_two_pow
    have hten : 0 < 10 ^ (-k).toNat := Nat.pow_pos (by decide)
    have hprod : 10 ^ (-k).toNat ≤ 10 ^ (-k).toNat * 2 ^ (e - 2).toNat := Nat.le_mul_of_pos_right _ htwo
    rw [show k.toNat = 0 by omega, pow_zero, one_mul]
    omega

-- ---------------------------------------------------------------------------
-- Doubles
-- ---------------------------------------------------------------------------

theorem contains_shortest {x : Float} (h : (magnitude x).Normal) :
    (magnitude x).interval.Contains (shortest tie x).value := by
  have hsome : ((magnitude x).interval.coarsest tie 25 (magnitude x).decimalBound).isSome = true := by
    refine coarsest_isSome 24 (by decide) (onGrid_isSome rfl (Nat.sub_le ..) ?_)
    exact gridFactor_lt h
  obtain ⟨s, hs⟩ := Option.isSome_iff_exists.mp hsome
  have hshortest : shortest tie x = s := by
    rw [shortest, if_neg h.pos.ne', hs]
    rfl
  rw [hshortest]
  exact contains_of_holds (holds_of_coarsest hs)

theorem magnitude_cases (x : Float) : ∃ biased fraction, biased < 2 ^ 11 ∧ fraction < 2 ^ 52 ∧
    x.toBits.toNat = (if isNegative x then 2 ^ 63 else 0) + biased * 2 ^ 52 + fraction ∧
    magnitude x = if biased = 0 then ⟨fraction, -1074⟩
      else ⟨fraction + 2 ^ 52, (biased : Int) - 1075⟩ := by
  have hlt := x.toBits.toNat_lt
  refine ⟨x.toBits.toNat / 2 ^ 52 % 2 ^ 11, x.toBits.toNat % 2 ^ 52, Nat.mod_lt _ (by decide),
    Nat.mod_lt _ (by decide), ?_, rfl⟩
  have hnegative : isNegative x = true ↔ 2 ^ 63 ≤ x.toBits.toNat := decide_eq_true_iff
  norm_num at hnegative hlt ⊢
  split
  · have := hnegative.mp ‹_›
    omega
  · have := mt hnegative.mpr ‹_›
    omega

theorem normal_magnitude {x : Float} (h : (magnitude x).mantissa ≠ 0) : (magnitude x).Normal := by
  obtain ⟨biased, fraction, hb, hf, -, hm⟩ := magnitude_cases x
  rw [hm] at h ⊢
  split at h
  · rw [if_pos ‹_›]
    constructor <;> simp at * <;> omega
  · rw [if_neg ‹_›]
    constructor <;> simp at * <;> omega

theorem eq_of_toBits_eq {x y : Float} (h : x.toBits = y.toBits) : x = y := by
  obtain ⟨⟨bits, _⟩⟩ := x
  obtain ⟨⟨bits', _⟩⟩ := y
  obtain rfl : bits = bits' := h
  rfl

theorem eq_of_magnitude_eq {x y : Float} (hs : isNegative x = isNegative y)
    (hm : magnitude x = magnitude y) : x = y := by
  obtain ⟨b, f, hb, hf, hbits, hx⟩ := magnitude_cases x
  obtain ⟨b', f', hb', hf', hbits', hy⟩ := magnitude_cases y
  rw [hx, hy] at hm
  refine eq_of_toBits_eq (UInt64.toNat_inj.mp ?_)
  rw [hbits, hbits', hs]
  split at hm <;> split at hm <;> simp at hm <;> omega

theorem value_shortest_pos {x : Float} (h : (magnitude x).mantissa ≠ 0) :
    0 < (shortest tie x).value := by
  have hn := normal_magnitude h
  have hlow : 0 < (magnitude x).interval.low := by
    have := hn.pos
    simp only [Magnitude.interval]
    split <;> omega
  refine lt_of_lt_of_le ?_ (contains_shortest hn).1
  exact mul_pos (by exact_mod_cast hlow) (zpow_pos two_pos _)

theorem magnitude_eq_of_value_eq {x y : Float}
    (h : (shortest tie x).value = (shortest tie y).value) : magnitude x = magnitude y := by
  have hzero {z : Float} (hz : (magnitude z).mantissa = 0) :
      (shortest tie z).value = 0 ∧ magnitude z = ⟨0, -1074⟩ := by
    refine ⟨by simp [shortest, hz, Scientific.value], ?_⟩
    obtain ⟨biased, fraction, hb, hf, -, hm⟩ := magnitude_cases z
    rw [hm] at hz ⊢
    split at hz
    · rw [if_pos ‹_›]
      simpa using hz
    · simp at hz
  by_cases hx : (magnitude x).mantissa = 0
  · by_cases hy : (magnitude y).mantissa = 0
    · rw [(hzero hx).2, (hzero hy).2]
    · exact absurd (h ▸ value_shortest_pos hy) (by simp [(hzero hx).1])
  · by_cases hy : (magnitude y).mantissa = 0
    · exact absurd (h ▸ value_shortest_pos hx) (by simp [(hzero hy).1])
    · exact eq_of_contains (normal_magnitude hx) (normal_magnitude hy)
        (contains_shortest (normal_magnitude hx)) (h ▸ contains_shortest (normal_magnitude hy))

end ChartPipeline.Decimal
