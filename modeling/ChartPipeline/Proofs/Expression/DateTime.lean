import ChartPipeline.Expression.Filter
import Mathlib.Data.List.Forall2

/-!
# The places of a date-time

A call of a date-time has seven places (`DatePart.places`). At each of them stands the part that the
place is for, or the one that stands in for it, with the same arithmetic behind it wherever it comes
from, or else a default (`dateTimeArguments_eq`). A part of a field is read off a reference to it
(`Expression.ofField`), and one of a literal is its own number or the number of its name
(`Expression.OfMember`). So a field cut to a time unit and a literal that gives the parts of the
unit are written alike (`Expression.unit_aligned`).
-/

namespace ChartPipeline

namespace DatePart

def all : List DatePart :=
  [.year, .quarter, .month, .day, .date, .hours, .minutes, .seconds, .milliseconds]

def places : List DatePart := [.year, .month, .date, .hours, .minutes, .seconds, .milliseconds]

/-- The part that stands at a place if the part that the place is for is not given. -/
def standIn? : DatePart → Option DatePart
  | .month => some .quarter
  | .date => some .day
  | _ => none

/-- What is written behind a part: a quarter is turned into its first month, and a day of the week
into a date. -/
def arithmetic : DatePart → String
  | .quarter => "*3"
  | .day => "+1"
  | _ => ""

variable {parts : List DatePart} {place p : DatePart}

def at? (parts : List DatePart) (place : DatePart) : Option DatePart :=
  if place ∈ parts then some place else place.standIn?.filter (· ∈ parts)

/-- What stands at a place where no given part does. Days of the week are dates of a year that
begins on a Sunday. -/
def default (parts : List DatePart) : DatePart → String
  | .year => if .day ∈ parts then "2006" else "0"
  | .date => "1"
  | _ => "0"

theorem mem_of_at? (h : at? parts place = some p) : p ∈ parts := by
  unfold at? at h
  split at h
  · cases h
    assumption
  · simpa using (Option.filter_eq_some_iff.mp h).2

end DatePart

def DateTime.member? (d : DateTime) : DatePart → Option DateTimeValue
  | .year => d.year.map .number
  | .quarter => d.quarter.map .number
  | .month => d.month
  | .day => d.day
  | .date => d.date.map .number
  | .hours => d.hours.map .number
  | .minutes => d.minutes.map .number
  | .seconds => d.seconds.map .number
  | .milliseconds => d.milliseconds.map .number

/-- A literal says something about the parts of a unit, and about no others. -/
def DateTime.Gives (d : DateTime) (u : TimeUnit) : Prop :=
  ∀ p, (d.member? p).isSome = true ↔ p ∈ u.parts

namespace Expression

open DatePart (places at?)

variable {u : TimeUnit} {field name full : String} {names : List String} {i : Nat}
  {d : DateTime} {parts : List DatePart} {p : DatePart}
  {part : DatePart → Option String} {text : DatePart → String}

/-- What stands before and behind a reference to a field where a part is read off it. Quarters are
counted from one there and from zero in a date-time. -/
def reader : DatePart → String × String
  | .year => ("year(", ")")
  | .quarter => ("(quarter(", ")-1)")
  | .month => ("month(", ")")
  | .day => ("day(", ")")
  | .date => ("date(", ")")
  | .hours => ("hours(", ")")
  | .minutes => ("minutes(", ")")
  | .seconds => ("seconds(", ")")
  | .milliseconds => ("milliseconds(", ")")

def ofField (field : String) (p : DatePart) : String :=
  (reader p).1 ++ ("datum[" ++ Text.quote field ++ "]") ++ (reader p).2

/-- A name is written out or as its first three letters, in any case. -/
def Spells (name full : String) : Prop :=
  full.toList = name.toList.map Char.toLower ∨ full.toList.take 3 = name.toList.map Char.toLower

def Names (names : List String) (name : String) (i : Nat) : Prop :=
  ∃ full, names[i]? = some full ∧ Spells name full

def namesOf : DatePart → List String
  | .month => monthNames
  | .day => dayNames
  | _ => []

/-- A member of a literal as an expression. Months and quarters are counted from one in a literal
and from zero in a date-time, and so are months and days that are named. -/
inductive OfMember : DatePart → DateTimeValue → String → Prop
  | month (n : Int) : OfMember .month (.number n) (toString (n - 1))
  | quarter (n : Int) : OfMember .quarter (.number n) (toString (n - 1))
  | day (n : Int) : OfMember .day (.number n) (toString (n.tmod 7))
  | number {p : DatePart} (hp : p ∉ [.month, .quarter, .day]) (n : Int) :
      OfMember p (.number n) (toString n)
  | named {p : DatePart} {name : String} {i : Nat} (h : Names (namesOf p) name i) :
      OfMember p (.name name) (toString i)
  | unnamed {p : DatePart} {name : String} (h : ∀ i, ¬ Names (namesOf p) name i) :
      OfMember p (.name name) "0"

-- ---------------------------------------------------------------------------
-- Parts
-- ---------------------------------------------------------------------------

theorem partOfField_eq (field : String) (p : DatePart) : partOfField field p = ofField field p := by
  rw [← String.toList_inj]
  cases p <;> simp [partOfField, fieldRef, ofField, reader, DatePart.name]

theorem intText_eq (n : Int) : intText n = toString n := by
  cases n with
  | ofNat n => exact if_neg (Int.not_lt.mpr (Int.natCast_nonneg n))
  | negSucc n => exact if_pos (Int.negSucc_lt_zero n)

theorem take_eq_iff {n : Nat} {folded full : List Char} (h : n ≤ full.length) :
    full.take n = folded ↔ folded.length = n ∧ folded <+: full := by
  rw [List.prefix_iff_eq_take]
  constructor
  · rintro rfl
    rw [List.length_take_of_le h]
    exact ⟨rfl, rfl⟩
  · rintro ⟨rfl, he⟩
    exact he.symm

theorem spells_iff (h : 3 ≤ full.toList.length) : Spells name full ↔
    let folded := name.toList.map Char.toLower
    (full.toList == folded || (folded.length == 3 && folded.isPrefixOf full.toList)) = true := by
  rw [Spells, take_eq_iff h]
  simp

theorem names_of_nameIndex? (hnames : ∀ full ∈ names, 3 ≤ full.toList.length)
    (h : nameIndex? names name = some i) : Names names name i := by
  obtain ⟨hlt, hi, -⟩ := List.findIdx?_eq_some_iff_getElem.mp h
  exact ⟨names[i], List.getElem?_eq_getElem hlt,
    (spells_iff (hnames _ (List.getElem_mem hlt))).mpr hi⟩

theorem not_names_of_nameIndex? (hnames : ∀ full ∈ names, 3 ≤ full.toList.length)
    (h : nameIndex? names name = none) (i : Nat) : ¬ Names names name i := by
  rintro ⟨full, hfull, hspells⟩
  have hmem := List.mem_of_getElem? hfull
  have htest := (spells_iff (hnames full hmem)).mp hspells
  exact Bool.false_ne_true ((List.findIdx?_eq_none_iff.mp h full hmem).symm.trans htest)

def valueText : DatePart → DateTimeValue → String
  | .month, value => monthText value
  | .day, value => dayText value
  | .quarter, .number n => intText (n - 1)
  | _, .number n => intText n
  | _, .name _ => ""

theorem ofMember_name (p : DatePart) (name : String) :
    OfMember p (.name name) (Nat.repr ((nameIndex? (namesOf p) name).getD 0)) := by
  have hnames : ∀ full ∈ namesOf p, 3 ≤ full.toList.length := by cases p <;> decide
  cases h : nameIndex? (namesOf p) name with
  | none => exact .unnamed (not_names_of_nameIndex? hnames h)
  | some i => exact .named (names_of_nameIndex? hnames h)

theorem ofMember_valueText {v : DateTimeValue} (hv : d.member? p = some v) :
    OfMember p v (valueText p v) := by
  cases v with
  | number n =>
    cases p with
    | month | quarter | day =>
      simp only [valueText, monthText, dayText, intText_eq]
      constructor
    | _ =>
      simp only [valueText, intText_eq]
      exact .number (by decide) n
  | name name =>
    cases p with
    | month | day => exact ofMember_name _ name
    | _ => simp [DateTime.member?] at hv

theorem partOfLiteral_eq (d : DateTime) (p : DatePart) :
    partOfLiteral d p = (d.member? p).map (valueText p) := by
  cases p with
  | month => rfl
  | day => rfl
  | _ => simp [partOfLiteral, DateTime.member?, valueText, Function.comp_def]

def argument (parts : List DatePart) (text : DatePart → String) (place : DatePart) : String :=
  match at? parts place with
  | some p => text p ++ p.arithmetic
  | none => place.default parts

theorem argument_eq (h : ∀ p, part p = if p ∈ parts then some (text p) else none)
    {place : DatePart} (hp : place.arithmetic = "") : argument parts text place =
      (part place <|> place.standIn?.bind fun p => (part p).map (· ++ p.arithmetic)).getD
        (place.default parts) := by
  unfold argument at?
  by_cases hplace : place ∈ parts
  · simp [h, hplace, hp]
  · cases place.standIn? with
    | none => simp [h, hplace]
    | some p => by_cases hpart : p ∈ parts <;> simp [h, hplace, hpart, Option.filter]

theorem dateTimeArguments_eq (h : ∀ p, part p = if p ∈ parts then some (text p) else none) :
    dateTimeArguments part = places.map (argument parts text) := by
  have hplaces : ∀ place ∈ places, place.arithmetic = "" := by decide
  have hday : (part .day).isSome = decide (.day ∈ parts) := by
    rw [h]
    split <;> simp [*]
  rw [List.map_congr_left fun place hp => argument_eq h (hplaces place hp)]
  simp [dateTimeArguments, places, DatePart.standIn?, DatePart.arithmetic, DatePart.default, hday]

theorem timeUnit_eq (u : TimeUnit) (field : String) : timeUnit u field =
    "datetime(" ++ String.intercalate ", "
      (places.map (argument u.parts (ofField field))) ++ ")" := by
  rw [timeUnit, dateTimeCall, dateTimeArguments_eq fun p => by rw [partOfField_eq]]

def textOfLiteral (d : DateTime) (p : DatePart) : String :=
  ((d.member? p).map (valueText p)).getD ""

theorem dateTime_eq (h : ∀ p, (d.member? p).isSome = true ↔ p ∈ parts) : dateTime d =
    "datetime(" ++ String.intercalate ", " (places.map (argument parts (textOfLiteral d))) ++
      ")" := by
  have hpart (p : DatePart) :
      partOfLiteral d p = if p ∈ parts then some (textOfLiteral d p) else none := by
    rw [partOfLiteral_eq, textOfLiteral]
    cases hmember : d.member? p with
    | none => rw [if_neg (mt (h p).mpr (by simp [hmember])), Option.map_none]
    | some v =>
      rw [if_pos ((h p).mp (by simp [hmember])), Option.map_some, Option.getD_some]
  rw [dateTime, dateTimeCall, dateTimeArguments_eq hpart]

-- ---------------------------------------------------------------------------
-- Fields and literals
-- ---------------------------------------------------------------------------

/-- An argument of a date-time in a field, and the one of a literal at the same place: the same
default, or a part that the unit has, read off the field and given by the literal, with the same
arithmetic behind it. -/
inductive Parallel (u : TimeUnit) (field : String) (d : DateTime) (place : DatePart) :
    String × String → Prop
  | default (h : at? u.parts place = none) :
      Parallel u field d place (place.default u.parts, place.default u.parts)
  | part {p : DatePart} {v : DateTimeValue} {written : String} (h : at? u.parts place = some p)
      (hv : d.member? p = some v) (hw : OfMember p v written) :
      Parallel u field d place (ofField field p ++ p.arithmetic, written ++ p.arithmetic)

def Aligned (u : TimeUnit) (field : String) (d : DateTime) : Prop :=
  ∃ arguments : List (String × String), arguments.length = 7 ∧
    timeUnit u field =
      "datetime(" ++ String.intercalate ", " (arguments.map Prod.fst) ++ ")" ∧
    dateTime d = "datetime(" ++ String.intercalate ", " (arguments.map Prod.snd) ++ ")" ∧
    List.Forall₂ (Parallel u field d) places arguments

theorem parallel_argument (h : d.Gives u) (place : DatePart) :
    Parallel u field d place
      (argument u.parts (ofField field) place, argument u.parts (textOfLiteral d) place) := by
  unfold argument
  cases hplace : at? u.parts place with
  | none => exact .default hplace
  | some p =>
    obtain ⟨v, hv⟩ := Option.isSome_iff_exists.mp ((h p).mpr (DatePart.mem_of_at? hplace))
    have hpart : Parallel u field d place
        (ofField field p ++ p.arithmetic, valueText p v ++ p.arithmetic) :=
      .part hplace hv (ofMember_valueText hv)
    simpa only [textOfLiteral, hv, Option.map_some, Option.getD_some] using hpart

theorem aligned_of_gives (field : String) (h : d.Gives u) : Aligned u field d := by
  refine ⟨places.map fun place =>
    (argument u.parts (ofField field) place, argument u.parts (textOfLiteral d) place), rfl, ?_⟩
  rw [List.map_map, List.map_map, List.forall₂_map_right_iff, List.forall₂_same]
  exact ⟨timeUnit_eq u field, dateTime_eq h, fun place _ => parallel_argument h place⟩

theorem member?_singlePart (p q : DatePart) (n : Int) :
    (singlePart p (some n) (.number n)).member? q = if q = p then some (.number n) else none := by
  cases p <;> cases q <;> rfl

theorem gives_singlePart {p : DatePart} (hu : u.parts = [p]) (n : Int) :
    (singlePart p (some n) (.number n)).Gives u := by
  intro q
  rw [hu, List.mem_singleton, member?_singlePart]
  split <;> simp [*]

/-- A field cut to a unit is written like a literal that gives the parts of the unit, be it one that
the chart gives or one that a number stands for. -/
theorem unit_aligned (u : TimeUnit) (field : String) :
    (∀ d : DateTime, d.Gives u → Aligned u field d) ∧
      ∀ (x : Float) (p : DatePart), u.parts = [p] →
        ∃ d, asDateTime (some u) (.number x) = some d ∧
          (∀ q, d.member? q = if q = p then some (.number (wholeNumber x)) else none) ∧
          d.Gives u ∧ Aligned u field d := by
  refine ⟨fun d h => aligned_of_gives field h, fun x p hu => ?_⟩
  have hgives := gives_singlePart hu (wholeNumber x)
  exact ⟨_, by simp [asDateTime, hu], fun q => member?_singlePart p q _, hgives,
    aligned_of_gives field hgives⟩

/-- A quarter stands for its first month, a name for its month, and a day for a date of 2006. -/
theorem unit_aligned_sample :
    Aligned .yearquarter "d" { year := some 2000, quarter := some 2 } ∧
      timeUnit .yearquarter "d" =
        "datetime(year(datum[\"d\"]), (quarter(datum[\"d\"])-1)*3, 1, 0, 0, 0, 0)" ∧
      dateTime { year := some 2000, quarter := some 2 } = "datetime(2000, 1*3, 1, 0, 0, 0, 0)" ∧
      Aligned .month "d" { month := some (.name "Feb") } ∧
      dateTime { month := some (.name "Feb") } = "datetime(0, 1, 1, 0, 0, 0, 0)" ∧
      (∃ d, asDateTime (some .day) (.number 8) = some d ∧ d.Gives .day ∧ Aligned .day "d" d) ∧
      dateTime { day := some (.number 8) } = "datetime(2006, 0, 1+1, 0, 0, 0, 0)" := by
  refine ⟨(unit_aligned .yearquarter "d").1 _ fun p => by cases p <;> decide, by decide +kernel,
    by decide +kernel, (unit_aligned .month "d").1 _ fun p => by cases p <;> decide,
    by decide +kernel, ?_, by decide +kernel⟩
  obtain ⟨d, hd, -, hgives, haligned⟩ := (unit_aligned .day "d").2 8 .day rfl
  exact ⟨d, hd, hgives, haligned⟩

end Expression

end ChartPipeline
