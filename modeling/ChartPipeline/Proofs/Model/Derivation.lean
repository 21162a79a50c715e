import ChartPipeline.Chart.Field

/-!
# Derived fields

A field that is binned, aggregated or cut to a time unit has a name that tells how, and from which
field it comes (`Derivation.name_inj`). So a definition can be told from the name of the field that
it produces, up to the name of a raw field (`FieldDef.derivation?_of_derivedName`), and derived
fields share a name only where one and the same derivation is done to one and the same field
(`FieldDef.derivedName_eq_iff`).
-/

namespace ChartPipeline

variable {field other : String} {suffix : Option BinSuffix} {d : FieldDef}

-- ---------------------------------------------------------------------------
-- Words
-- ---------------------------------------------------------------------------

theorem append_cons_inj_of_notMem_left {α : Type} {c : α} {x y s t : List α} (hx : c ∉ x)
    (hy : c ∉ y) : x ++ c :: s = y ++ c :: t ↔ x = y ∧ s = t := by
  induction x generalizing y with
  | nil =>
    cases y with
    | nil => simp
    | cons b y =>
      have hne : c ≠ b := fun he => hy (he ▸ List.mem_cons_self)
      simp [hne]
  | cons a x ih =>
    obtain ⟨hac, hx⟩ := not_or.mp (mt List.mem_cons.mpr hx)
    cases y with
    | nil => simp [Ne.symm hac]
    | cons b y =>
      have hy : c ∉ y := fun h => hy (List.mem_cons_of_mem _ h)
      simp [ih hx hy, and_assoc]

@[simp] theorem AggregateOp.ofName?_name (op : AggregateOp) :
    AggregateOp.ofName? op.name = some op := by
  cases op <;> rfl

theorem AggregateOp.name_injective {op op' : AggregateOp} (h : op.name = op'.name) : op = op' :=
  Option.some.inj ((ofName?_name op).symm.trans (h ▸ ofName?_name op'))

@[simp] theorem TimeUnit.ofName?_name (unit : TimeUnit) :
    TimeUnit.ofName? unit.name = some unit := by
  cases unit <;> decide

theorem AggregateOp.notMem_name (op : AggregateOp) : '_' ∉ op.name.toList := by
  cases op <;> decide

theorem TimeUnit.notMem_name (unit : TimeUnit) : '_' ∉ unit.name.toList := by
  cases unit <;> decide

theorem BinSuffix.notMem_name (suffix : BinSuffix) : '_' ∉ suffix.name.toList := by
  cases suffix <;> decide

theorem BinSuffix.name_injective {suffix suffix' : BinSuffix} (h : suffix.name = suffix'.name) :
    suffix = suffix' := by
  cases suffix <;> cases suffix' <;> first | rfl | exact absurd h (by decide)

-- ---------------------------------------------------------------------------
-- Derivations
-- ---------------------------------------------------------------------------

inductive Derivation where
  | bin (suffix : BinSuffix)
  | aggregate (op : AggregateOp)
  | timeUnit (unit : TimeUnit)
deriving DecidableEq

namespace Derivation

def name : Derivation → String → String
  | .bin suffix, field => "bin_" ++ field ++ "_" ++ suffix.name
  | .aggregate op, field => op.name ++ "_" ++ field
  | .timeUnit unit, field => unit.name ++ "_" ++ field

def word : Derivation → String
  | .bin _ => "bin"
  | .aggregate op => op.name
  | .timeUnit unit => unit.name

def tail : Derivation → String → List Char
  | .bin suffix, field => field.toList ++ '_' :: suffix.name.toList
  | _, field => field.toList

theorem toList_name (x : Derivation) (field : String) :
    (x.name field).toList = x.word.toList ++ '_' :: x.tail field := by
  cases x <;> simp [name, word, tail]

theorem notMem_word (x : Derivation) : '_' ∉ x.word.toList := by
  cases x with
  | bin suffix => simp [word]
  | aggregate op => exact op.notMem_name
  | timeUnit unit => exact unit.notMem_name

theorem word_cases {x y : Derivation} (h : x.word = y.word) :
    (∃ suffix suffix', x = .bin suffix ∧ y = .bin suffix') ∨ x = y ∧ ∀ suffix, x ≠ .bin suffix := by
  have hop := congrArg AggregateOp.ofName? h
  have hunit := congrArg TimeUnit.ofName? h
  have hbin : AggregateOp.ofName? "bin" = none ∧ TimeUnit.ofName? "bin" = none := by decide
  have hapart (unit : TimeUnit) : AggregateOp.ofName? unit.name = none := by cases unit <;> decide
  clear h
  revert hop hunit
  cases x <;> cases y <;> simp +contextual [word, hbin, hapart]

/-- The derivation and the raw field can be read off a derived name. -/
theorem name_inj {x y : Derivation} : x.name field = y.name other ↔ x = y ∧ field = other := by
  refine ⟨fun h => ?_, by rintro ⟨rfl, rfl⟩; rfl⟩
  have hparts := congrArg String.toList h
  rw [toList_name, toList_name,
    append_cons_inj_of_notMem_left x.notMem_word y.notMem_word] at hparts
  obtain ⟨hword, htail⟩ := hparts
  rcases word_cases (String.toList_injective hword) with ⟨s, s', rfl, rfl⟩ | ⟨rfl, hx⟩
  · -- a suffix has no underscore, so the raw field ends at the last one
    have hreverse := congrArg List.reverse htail
    simp only [tail, List.reverse_append, List.reverse_cons, List.append_assoc,
      List.singleton_append] at hreverse
    rw [append_cons_inj_of_notMem_left (by simpa using s.notMem_name)
      (by simpa using s'.notMem_name), List.reverse_inj, List.reverse_inj] at hreverse
    obtain rfl := BinSuffix.name_injective (String.toList_injective hreverse.1)
    exact ⟨rfl, String.toList_injective hreverse.2⟩
  · refine ⟨rfl, String.toList_injective ?_⟩
    cases x with
    | bin s => exact absurd rfl (hx s)
    | _ => exact htail

end Derivation

-- ---------------------------------------------------------------------------
-- Definitions
-- ---------------------------------------------------------------------------

namespace FieldDef

/-- How the field of a definition is derived and from what. All rows are counted. -/
def derivation? (d : FieldDef) (suffix : Option BinSuffix) : Option (Derivation × String) :=
  if d.isCount then some (.aggregate .count, "*")
  else if d.isBinned then some (.bin (suffix.getD .start), d.rawField)
  else match d.aggregate, d.timeUnit with
    | some op, _ => some (.aggregate op, d.rawField)
    | none, some unit => some (.timeUnit unit, d.rawField)
    | none, none => none

theorem derivedName_eq (d : FieldDef) (suffix : Option BinSuffix) : d.derivedName suffix =
    (d.derivation? suffix).elim d.rawField fun x => x.1.name x.2 := by
  unfold derivedName derivation?
  split
  · rfl
  split
  · rfl
  · cases d.aggregate with
    | some op => rfl
    | none => cases d.timeUnit <;> rfl

theorem derivation?_eq_bin {s : BinSuffix} : d.derivation? suffix = some (.bin s, field) ↔
    d.isCount = false ∧ d.isBinned = true ∧ suffix.getD .start = s ∧ d.rawField = field := by
  unfold derivation?
  split
  · simp [*]
  split
  · simp [*]
  split <;> simp [*]

theorem derivation?_eq_timeUnit {unit : TimeUnit} :
    d.derivation? suffix = some (.timeUnit unit, field) ↔
      d.aggregate = none ∧ d.isBinned = false ∧ d.timeUnit = some unit ∧ d.rawField = field := by
  unfold derivation?
  split
  · rename_i h
    rw [isCount, decide_eq_true_eq] at h
    simp [h]
  split
  · simp [*]
  split <;> simp [*]

/-- A definition that derives its field is known by the name of the field. -/
theorem derivation?_of_derivedName {x : Derivation} (h : (d.derivation? suffix).isSome)
    (he : d.derivedName suffix = x.name field) : d.derivation? suffix = some (x, field) := by
  obtain ⟨⟨y, raw⟩, hy⟩ := Option.isSome_iff_exists.mp h
  rw [derivedName_eq, hy] at he
  obtain ⟨rfl, rfl⟩ := Derivation.name_inj.mp he
  exact hy

theorem derivedName_of_derivation? {x : Derivation} (h : d.derivation? suffix = some (x, field)) :
    d.derivedName suffix = x.name field := by
  rw [derivedName_eq, h]
  rfl

theorem isCount_eq_false (h : d.aggregate = none) : d.isCount = false := by
  simp [isCount, h]

theorem derivedName_of_isBinned (hc : d.isCount = false) (hb : d.isBinned = true)
    (hf : d.field = some field) (suffix : BinSuffix) :
    d.derivedName (some suffix) = (Derivation.bin suffix).name field := by
  refine derivedName_of_derivation? (derivation?_eq_bin.mpr ⟨hc, hb, rfl, ?_⟩)
  rw [rawField, hf, Option.getD_some]

-- ---------------------------------------------------------------------------
-- Clashes
-- ---------------------------------------------------------------------------

def isDerived (d : FieldDef) : Bool :=
  d.isCount || d.isBinned || d.aggregate.isSome || d.timeUnit.isSome

/-- The derivation that is done where a definition asks for several, and does not count. -/
inductive Wins (d : FieldDef) (suffix : Option BinSuffix) : Derivation → Prop
  | bin (hc : d.isCount = false) (hb : d.isBinned = true) :
      Wins d suffix (.bin (suffix.getD .start))
  | aggregate {op : AggregateOp} (hc : d.isCount = false) (hb : d.isBinned = false)
      (ha : d.aggregate = some op) : Wins d suffix (.aggregate op)
  | timeUnit {unit : TimeUnit} (hb : d.isBinned = false) (ha : d.aggregate = none)
      (hu : d.timeUnit = some unit) : Wins d suffix (.timeUnit unit)

variable {e : FieldDef} {suffix' : Option BinSuffix} {x : Derivation}

theorem isSome_derivation? (d : FieldDef) (suffix : Option BinSuffix) :
    (d.derivation? suffix).isSome = d.isDerived := by
  unfold derivation? isDerived
  split
  · simp [*]
  split
  · simp [*]
  split <;> simp [*]

theorem derivation?_of_wins (h : d.Wins suffix x) :
    d.derivation? suffix = some (x, d.rawField) := by
  cases h with
  | bin hc hb => exact derivation?_eq_bin.mpr ⟨hc, hb, rfl, rfl⟩
  | aggregate hc hb ha => simp [derivation?, hc, hb, ha]
  | timeUnit hb ha hu => exact derivation?_eq_timeUnit.mpr ⟨ha, hb, hu, rfl⟩

theorem wins_of_derivation? (hc : d.isCount = false) (h : d.derivation? suffix = some (x, field)) :
    d.Wins suffix x ∧ d.rawField = field := by
  cases x with
  | bin s =>
    obtain ⟨-, hb, rfl, hraw⟩ := derivation?_eq_bin.mp h
    exact ⟨.bin hc hb, hraw⟩
  | timeUnit unit =>
    obtain ⟨ha, hb, hu, hraw⟩ := derivation?_eq_timeUnit.mp h
    exact ⟨.timeUnit hb ha hu, hraw⟩
  | aggregate op =>
    rw [derivation?, if_neg (Bool.eq_false_iff.mp hc)] at h
    split at h
    · cases h
    · rename_i hb
      split at h <;> cases h
      exact ⟨.aggregate hc (Bool.eq_false_iff.mpr hb) ‹_›, rfl⟩

theorem isCount_iff (h : d.derivation? suffix = some (x, field)) :
    d.isCount = true ↔ x = .aggregate .count := by
  refine ⟨fun hc => ?_, ?_⟩
  · rw [derivation?, if_pos hc] at h
    cases h
    rfl
  · rintro rfl
    cases hc : d.isCount with
    | true => rfl
    | false =>
      cases (wins_of_derivation? hc h).1 with
      | aggregate _ _ ha => simp [isCount, ha] at hc

/-- Derived fields have the same name if and only if both are counts, or the same derivation is done
to the same raw field. -/
theorem derivedName_eq_iff (hd : d.isDerived = true) (he : e.isDerived = true) :
    d.derivedName suffix = e.derivedName suffix' ↔
      d.isCount = true ∧ e.isCount = true ∨
        ∃ x, d.Wins suffix x ∧ e.Wins suffix' x ∧ d.rawField = e.rawField := by
  rw [← isSome_derivation? _ suffix] at hd
  rw [← isSome_derivation? _ suffix'] at he
  constructor
  · intro h
    obtain ⟨⟨x, field⟩, hx⟩ := Option.isSome_iff_exists.mp hd
    have hy : e.derivation? suffix' = some (x, field) :=
      derivation?_of_derivedName he (h ▸ derivedName_of_derivation? hx)
    have hsame : d.isCount = e.isCount :=
      Bool.eq_iff_iff.mpr ((isCount_iff hx).trans (isCount_iff hy).symm)
    cases hc : d.isCount with
    | true => exact .inl ⟨rfl, hsame ▸ hc⟩
    | false =>
      obtain ⟨hwins, hraw⟩ := wins_of_derivation? hc hx
      obtain ⟨hwins', hraw'⟩ := wins_of_derivation? (hsame ▸ hc) hy
      exact .inr ⟨x, hwins, hwins', hraw.trans hraw'.symm⟩
  · rintro (⟨hc, hc'⟩ | ⟨x, hwins, hwins', hraw⟩)
    · simp [derivedName, hc, hc']
    · rw [derivedName_of_derivation? (derivation?_of_wins hwins),
        derivedName_of_derivation? (derivation?_of_wins hwins'), hraw]

/-- A bin wins over a mean and a time unit, and starts where nothing else is said. -/
theorem derivedName_eq_iff_sample :
    ∃ x, FieldDef.Wins { field := some "a_end", aggregate := some .mean, bin := some {} } none x ∧
      FieldDef.Wins { field := some "a_end", bin := some {}, timeUnit := some .month }
        (some .start) x := by
  have hname :
      derivedName { field := some "a_end", aggregate := some .mean, bin := some {} } none =
        derivedName { field := some "a_end", bin := some {}, timeUnit := some .month }
          (some .start) := rfl
  have h := (derivedName_eq_iff rfl rfl).mp hname
  rcases h with ⟨hcount, -⟩ | ⟨x, hwins, hwins', -⟩
  · cases hcount
  · exact ⟨x, hwins, hwins'⟩

end FieldDef

end ChartPipeline
