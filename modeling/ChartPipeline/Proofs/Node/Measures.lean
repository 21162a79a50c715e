import ChartPipeline.Proofs.Node.Keys

/-!
# What the aggregate computes

An aggregate computes what the definitions of a unit ask for, each measure once, and groups by what
they leave as it is (`Aggregation.transform_exact`). The extremes of a field are added where the
channel asks for them, and a channel follows its first definition: what another definition says
about its scale does not count (`Aggregation.extremes_iff`).
-/

namespace ChartPipeline

variable {m : Model} {c : Channel} {d : FieldDef} {field key : String} {op : AggregateOp}
  {entry : Channel × FieldDef}

theorem Model.any_scaleDef? (hm : m.unit?.isSome) (c : Channel) :
    (m.scaleDef? c).any ScaleDef.isUnaggregated =
      (m.fieldDef? c).any FieldDef.isUnaggregated := by
  obtain ⟨u, hu⟩ := Option.isSome_iff_exists.mp hm
  rw [fieldDef?_of_unit? hu, scaleDef?, hu]
  cases hfirst : u.encoding.first? c <;> simp [hfirst, FieldDef.isUnaggregated]

namespace Aggregation

variable {a : Aggregation} {entries : List (Channel × FieldDef)} {ops : List AggregateOp}
  {measures : OrderedMap String (List AggregateOp)}

-- ---------------------------------------------------------------------------
-- What is asked for
-- ---------------------------------------------------------------------------

def Measures (d : FieldDef) (op : AggregateOp) (field : String) : Prop :=
  d.aggregate = some op ∧ if op = .count then field = "*" else d.field = some field

/-- The definition summarizes the field, which is more than to count rows. -/
def Summarizes (d : FieldDef) (op : AggregateOp) (field : String) : Prop :=
  d.aggregate = some op ∧ op ≠ .count ∧ d.field = some field

/-- The definition summarizes the field, and the first one of its channel wants the values before
that. -/
def Widens (m : Model) (entry : Channel × FieldDef) (field : String) : Prop :=
  (∃ op, Summarizes entry.2 op field) ∧ (m.fieldDef? entry.1).any FieldDef.isUnaggregated = true

inductive Demands (m : Model) (entry : Channel × FieldDef) : AggregateOp → String → Prop
  | counted : entry.2.isCount = true → Demands m entry .count "*"
  | summarized {op : AggregateOp} {field : String} :
    Summarizes entry.2 op field → Demands m entry op field
  | widened {op : AggregateOp} {field : String} :
    Widens m entry field → op = .min ∨ op = .max → Demands m entry op field

theorem Summarizes.isCount_eq_false (h : Summarizes d op field) : d.isCount = false := by
  simp [FieldDef.isCount, h.1, h.2.1]

theorem Summarizes.unique {own : AggregateOp} {other : String} (h : Summarizes d own other)
    (h' : Summarizes d op field) : op = own ∧ field = other :=
  ⟨Option.some.inj (h'.1.symm.trans h.1), Option.some.inj (h'.2.2.symm.trans h.2.2)⟩

theorem Measures.demands (h : Measures entry.2 op field) : Demands m entry op field := by
  obtain ⟨haggregate, hfield⟩ := h
  split at hfield
  · rename_i hop
    subst hop hfield
    exact .counted (decide_eq_true haggregate)
  · rename_i hop
    exact .summarized ⟨haggregate, hop, hfield⟩

theorem Demands.counts_or_summarizes (h : Demands m entry op field) :
    entry.2.isCount = true ∨ ∃ own, Summarizes entry.2 own field := by
  cases h with
  | counted h => exact .inl h
  | summarized h => exact .inr ⟨_, h⟩
  | widened h => exact .inr h.1

theorem demands_count : Demands m entry .count field ↔ entry.2.isCount = true ∧ field = "*" := by
  constructor
  · intro h
    cases h with
    | counted h => exact ⟨h, rfl⟩
    | summarized h => exact absurd rfl h.2.1
    | widened _ h => exact absurd h (by decide)
  · rintro ⟨h, rfl⟩
    exact .counted h

theorem demands_extreme (hop : op = .min ∨ op = .max) :
    Demands m entry op field ↔ Widens m entry field ∨ Summarizes entry.2 op field := by
  constructor
  · intro h
    cases h with
    | counted => exact absurd hop (by decide)
    | summarized h => exact .inr h
    | widened h => exact .inl h
  · rintro (h | h)
    · exact .widened h hop
    · exact .summarized h

theorem demands_of_isCount (hc : d.isCount = true) :
    Demands m (c, d) op field ↔ op = .count ∧ field = "*" := by
  constructor
  · intro h
    cases h with
    | counted => exact ⟨rfl, rfl⟩
    | summarized h => simp [h.isCount_eq_false] at hc
    | widened h =>
      obtain ⟨⟨_, h⟩, -⟩ := h
      simp [h.isCount_eq_false] at hc
  · rintro ⟨rfl, rfl⟩
    exact .counted hc

theorem demands_of_summarizes {own : AggregateOp} {other : String} (hm : m.unit?.isSome)
    (hs : Summarizes d own other) :
    Demands m (c, d) op field ↔ field = other ∧ op ∈ Aggregation.ops m c own := by
  rw [Aggregation.ops, Model.any_scaleDef? hm, List.mem_cons]
  constructor
  · intro h
    cases h with
    | counted h => simp [hs.isCount_eq_false] at h
    | summarized h => exact ⟨(hs.unique h).2, .inl (hs.unique h).1⟩
    | widened h hop =>
      obtain ⟨⟨_, h⟩, hwide⟩ := h
      rw [if_pos hwide]
      exact ⟨(hs.unique h).2, .inr (List.mem_pair.mpr hop)⟩
  · rintro ⟨rfl, rfl | hop⟩
    · exact .summarized hs
    · split at hop
      · exact .widened ⟨⟨_, hs⟩, ‹_›⟩ (List.mem_pair.mp hop)
      · cases hop

-- ---------------------------------------------------------------------------
-- Operators over a field
-- ---------------------------------------------------------------------------

def opsOf (measures : OrderedMap String (List AggregateOp)) (field : String) : List AggregateOp :=
  (OrderedMap.find? field measures).getD []

theorem opsOf_addOps {other : String} : opsOf (addOps measures other ops) field =
    if field = other then OrderedSet.union (opsOf measures field) ops
    else opsOf measures field := by
  unfold opsOf addOps
  by_cases h : field = other
  · simp [h]
  · simp [h, OrderedMap.find?_put_of_ne]

theorem mem_opsOf_addOps {other : String} : op ∈ opsOf (addOps measures other ops) field ↔
    op ∈ opsOf measures field ∨ field = other ∧ op ∈ ops := by
  rw [opsOf_addOps]
  by_cases h : field = other <;> simp [h]

theorem mem_opsOf_add (hm : m.unit?.isSome) : op ∈ opsOf (add m a entry).measures field ↔
    op ∈ opsOf a.measures field ∨ Demands m entry op field := by
  obtain ⟨c, d⟩ := entry
  have hnone (hd : ¬ (d.isCount = true ∨ ∃ own, Summarizes d own field)) :
      ¬ Demands m (c, d) op field := fun h => hd h.counts_or_summarizes
  unfold add
  cases haggregate : d.aggregate with
  | none =>
    have h := hnone (by simp [FieldDef.isCount, Summarizes, haggregate])
    cases hfield : d.field <;> simp [haggregate, hfield, h]
  | some own =>
    by_cases hown : own = .count
    · subst hown
      have h : d.isCount = true := decide_eq_true haggregate
      rw [demands_of_isCount h]
      simp [haggregate, mem_opsOf_addOps, and_comm]
    · cases hfield : d.field with
      | none =>
        have h := hnone (by simp [FieldDef.isCount, Summarizes, haggregate, hfield, hown])
        simp [haggregate, hfield, hown, h]
      | some other =>
        rw [demands_of_summarizes hm ⟨haggregate, hown, hfield⟩]
        simp [haggregate, hfield, mem_opsOf_addOps]

theorem mem_opsOf_foldl_add (hm : m.unit?.isSome) :
    op ∈ opsOf (entries.foldl (add m) a).measures field ↔
      op ∈ opsOf a.measures field ∨ ∃ entry ∈ entries, Demands m entry op field := by
  induction entries generalizing a with
  | nil => simp
  | cons entry entries ih =>
    rw [List.foldl_cons, ih, mem_opsOf_add hm, or_assoc, List.exists_mem_cons_iff]

theorem mem_opsOf_ofModel (hm : m.unit?.isSome) : op ∈ opsOf (ofModel m).measures field ↔
    ∃ entry ∈ m.fieldDefs, Demands m entry op field := by
  rw [ofModel, if_pos hm, mem_opsOf_foldl_add hm]
  simp [opsOf, OrderedMap.find?]

-- ---------------------------------------------------------------------------
-- Nothing twice
-- ---------------------------------------------------------------------------

structure Distinct (a : Aggregation) : Prop where
  dimensions : a.dimensions.Nodup
  fields : a.measures.keys.Nodup
  ops : ∀ field, (opsOf a.measures field).Nodup

theorem Distinct.addOps (h : a.Distinct) (field : String) (ops : List AggregateOp) :
    ({ a with measures := addOps a.measures field ops } : Aggregation).Distinct where
  dimensions := h.dimensions
  fields := OrderedMap.nodup_keys_put _ _ h.fields
  ops other := by
    rw [opsOf_addOps]
    split
    · exact OrderedSet.nodup_union (h.ops other) _
    · exact h.ops other

theorem Distinct.add (h : a.Distinct) (m : Model) (entry : Channel × FieldDef) :
    (Aggregation.add m a entry).Distinct := by
  unfold Aggregation.add
  dsimp only
  split
  · exact h.addOps _ _
  · exact h.addOps _ _
  · exact ⟨OrderedSet.nodup_union h.dimensions _, h.fields, h.ops⟩
  · exact h

theorem Distinct.foldl_add (h : a.Distinct) : (entries.foldl (Aggregation.add m) a).Distinct := by
  induction entries generalizing a with
  | nil => exact h
  | cons entry entries ih => exact ih (h.add m entry)

theorem distinct_ofModel (m : Model) : (ofModel m).Distinct := by
  have hempty : ({} : Aggregation).Distinct :=
    ⟨List.nodup_nil, List.nodup_nil, fun _ => List.nodup_nil⟩
  unfold ofModel
  split
  · exact hempty.foldl_add
  · exact hempty

theorem mem_pairs_iff (h : a.Distinct) : (op, field) ∈ a.pairs ↔ op ∈ opsOf a.measures field := by
  constructor
  · intro hpair
    obtain ⟨⟨_, ops⟩, hentry, hpair⟩ := List.mem_flatMap.mp hpair
    obtain ⟨_, hop, he⟩ := List.mem_map.mp hpair
    cases he
    rwa [opsOf, OrderedMap.find?_of_mem h.fields hentry]
  · intro hop
    unfold opsOf at hop
    cases hfound : OrderedMap.find? field a.measures with
    | none => simp [hfound] at hop
    | some ops =>
      rw [hfound] at hop
      exact List.mem_flatMap.mpr ⟨_, OrderedMap.mem_of_find? hfound, List.mem_map_of_mem hop⟩

theorem Distinct.nodup_pairs (h : a.Distinct) : a.pairs.Nodup := by
  refine List.nodup_flatMap.mpr ⟨fun entry hentry => ?_, ?_⟩
  · have hops := h.ops entry.1
    rw [opsOf, OrderedMap.find?_of_mem h.fields hentry] at hops
    exact hops.map fun _ _ he => (Prod.ext_iff.mp he).1
  · refine (List.pairwise_map.mp h.fields).imp fun hne p hleft hright => hne ?_
    -- a pair says which field it belongs to
    obtain ⟨_, -, rfl⟩ := List.mem_map.mp hleft
    obtain ⟨_, -, he⟩ := List.mem_map.mp hright
    exact (Prod.ext_iff.mp he).2.symm

theorem mem_pairs_ofModel (hm : m.unit?.isSome) : (op, field) ∈ (ofModel m).pairs ↔
    ∃ entry ∈ m.fieldDefs, Demands m entry op field := by
  rw [mem_pairs_iff (distinct_ofModel m), mem_opsOf_ofModel hm]

-- ---------------------------------------------------------------------------
-- The transform
-- ---------------------------------------------------------------------------

theorem mem_keys : key ∈ keys d ↔
    if d.isBinned = true then ∃ suffix, key = d.derivedName (some suffix)
    else key = d.derivedName none := by
  unfold keys
  split
  · constructor
    · intro h
      rcases List.mem_cons.mp h with rfl | h
      · exact ⟨.start, rfl⟩
      · rcases List.mem_pair.mp h with rfl | rfl
        · exact ⟨.end, rfl⟩
        · exact ⟨.range, rfl⟩
    · rintro ⟨suffix, rfl⟩
      cases suffix <;> simp
  · exact List.mem_singleton

/-- What the aggregate of a unit writes down. The measures are those that the definitions ask for,
and the keys of the groups are the fields that they leave as they are, all three of a bin. -/
theorem transform_exact (hm : m.unit?.isSome) : ∃ groupby ops fields : List String,
    (ofModel m).transform.toJson = .object (("type", .string "aggregate") ::
      ("groupby", Json.strings groupby) ::
        if ops.isEmpty then []
        else [("ops", Json.strings ops), ("fields", Json.strings fields)]) ∧
      ops.length = fields.length ∧ (ops.zip fields).Nodup ∧
      (("count", "*") ∈ ops.zip fields ↔ ∃ entry ∈ m.fieldDefs, entry.2.isCount = true) ∧
      (∀ name field, (name, field) ∈ ops.zip fields ↔
        ∃ op, name = op.name ∧ ∃ entry ∈ m.fieldDefs, Demands m entry op field) ∧
      groupby.Nodup ∧
      ∀ key, key ∈ groupby ↔ ∃ entry ∈ m.fieldDefs,
        entry.2.aggregate = none ∧ entry.2.field.isSome = true ∧
          if entry.2.isBinned = true then ∃ suffix, key = entry.2.derivedName (some suffix)
          else key = entry.2.derivedName none := by
  have hdistinct := distinct_ofModel m
  have hzip : ((ofModel m).pairs.map (·.1.name)).zip ((ofModel m).pairs.map Prod.snd) =
      (ofModel m).pairs.map fun p => (p.1.name, p.2) := List.zip_map' ..
  have hmem (name field : String) : (name, field) ∈ (ofModel m).pairs.map (fun p => (p.1.name, p.2))
      ↔ ∃ op, name = op.name ∧ ∃ entry ∈ m.fieldDefs, Demands m entry op field := by
    simp only [List.mem_map, Prod.exists, Prod.mk.injEq, ← mem_pairs_ofModel hm]
    constructor
    · rintro ⟨op, _, hpair, rfl, rfl⟩
      exact ⟨op, rfl, hpair⟩
    · rintro ⟨op, rfl, hpair⟩
      exact ⟨op, field, hpair, rfl, rfl⟩
  refine ⟨(ofModel m).dimensions, (ofModel m).pairs.map (·.1.name),
    (ofModel m).pairs.map Prod.snd, ?_, by simp only [List.length_map], ?_⟩
  · simp [transform, Transform.toJson, Transform.members]
  rw [hzip]
  refine ⟨?_, ?_, hmem, hdistinct.dimensions, fun key => ?_⟩
  · refine hdistinct.nodup_pairs.map fun p q he => ?_
    obtain ⟨hname, hfield⟩ := Prod.ext_iff.mp he
    exact Prod.ext (AggregateOp.name_injective hname) hfield
  · rw [hmem]
    constructor
    · rintro ⟨op, hname, entry, hentry, h⟩
      obtain rfl : AggregateOp.count = op := AggregateOp.name_injective hname
      exact ⟨entry, hentry, (demands_count.mp h).1⟩
    · rintro ⟨entry, hentry, hcount⟩
      exact ⟨.count, rfl, entry, hentry, .counted hcount⟩
  · simp only [mem_dimensions_ofModel hm, Asks, mem_keys]

/-- Means along the bins of a field, and others in a tooltip. Two of them want the values that they
are made of. -/
def means : Model where
  name := ""
  data := none
  transforms := []
  kind := .unit {
    mark := .bar
    orient := none
    encoding := [
      (.x, [{ field := some "a", bin := some {} }]),
      (.y, [{ field := some "b", aggregate := some .mean, scale := some wide }]),
      (.size, [{ aggregate := some .count }]),
      (.tooltip, [{ field := some "c", aggregate := some .mean },
        { field := some "d", aggregate := some .mean, scale := some wide },
        { field := some "b", aggregate := some .max }, { aggregate := some .count }])]
    stack := none }
where
  wide : ScaleDef := { domain := some (.string "unaggregated") }

theorem transform_exact_sample : ∃ groupby ops fields : List String,
    (ofModel means).transform.toJson = .object (("type", .string "aggregate") ::
      ("groupby", Json.strings groupby) ::
        if ops.isEmpty then []
        else [("ops", Json.strings ops), ("fields", Json.strings fields)]) ∧
      ("count", "*") ∈ ops.zip fields ∧ ("mean", "c") ∈ ops.zip fields ∧
      ("min", "b") ∈ ops.zip fields ∧ "bin_a_range" ∈ groupby := by
  obtain ⟨groupby, ops, fields, hjson, -, -, hcount, hmem, -, hkeys⟩ :=
    transform_exact (m := means) rfl
  refine ⟨groupby, ops, fields, hjson, hcount.mpr ?_, (hmem _ _).mpr ⟨.mean, rfl, ?_⟩,
    (hmem _ _).mpr ⟨.min, rfl, ?_⟩, (hkeys _).mpr ?_⟩
  · exact ⟨_, List.mem_of_getElem? (i := 2) rfl, rfl⟩
  · exact ⟨_, List.mem_of_getElem? (i := 3) rfl, .summarized ⟨rfl, by decide, rfl⟩⟩
  -- the first definition of the channel wants the values of b
  · exact ⟨_, List.mem_of_getElem? (i := 1) rfl, .widened ⟨⟨.mean, rfl, by decide, rfl⟩, rfl⟩
      (.inl rfl)⟩
  · exact ⟨_, List.mem_cons_self, rfl, rfl, .range, rfl⟩

theorem extreme_mem_iff (hm : m.unit?.isSome) (hop : op = .min ∨ op = .max) :
    op ∈ opsOf (ofModel m).measures field ↔
      (∃ entry ∈ m.fieldDefs, Widens m entry field) ∨
        ∃ entry ∈ m.fieldDefs, Summarizes entry.2 op field := by
  simp only [mem_opsOf_ofModel hm, demands_extreme hop, and_or_left, exists_or]

/-- A measure whose scale wants the values before the aggregate: the extremes are computed too if
its channel begins with it. Otherwise they are if and only if some channel that summarizes the field
begins with a definition that wants them, or the unit asks for both of them itself. -/
theorem extremes_iff (hm : m.unit?.isSome) (hd : (c, d) ∈ m.fieldDefs)
    (hs : Summarizes d op field) (hscale : d.isUnaggregated = true) :
    ∃ ops, OrderedMap.find? field (ofModel m).measures = some ops ∧ op ∈ ops ∧
      (m.fieldDef? c = some d → .min ∈ ops ∧ .max ∈ ops) ∧
      ((.min ∈ ops ∧ .max ∈ ops) ↔ (∃ entry ∈ m.fieldDefs, Widens m entry field) ∨
        (∃ entry ∈ m.fieldDefs, Summarizes entry.2 .min field) ∧
          ∃ entry ∈ m.fieldDefs, Summarizes entry.2 .max field) := by
  have hop : op ∈ opsOf (ofModel m).measures field :=
    (mem_opsOf_ofModel hm).mpr ⟨_, hd, .summarized hs⟩
  have hextremes : (.min ∈ opsOf (ofModel m).measures field ∧
      .max ∈ opsOf (ofModel m).measures field) ↔ (∃ entry ∈ m.fieldDefs, Widens m entry field) ∨
        (∃ entry ∈ m.fieldDefs, Summarizes entry.2 .min field) ∧
          ∃ entry ∈ m.fieldDefs, Summarizes entry.2 .max field := by
    rw [extreme_mem_iff hm (.inl rfl), extreme_mem_iff hm (.inr rfl), or_and_left]
  unfold opsOf at hop hextremes
  cases hfound : OrderedMap.find? field (ofModel m).measures with
  | none => simp [hfound] at hop
  | some ops =>
    rw [hfound] at hop hextremes
    refine ⟨ops, rfl, hop, fun hfirst => hextremes.mpr (.inl ⟨_, hd, ⟨_, hs⟩, ?_⟩), hextremes⟩
    rw [hfirst, Option.any_some, hscale]

theorem extremes_iff_sample : ∃ ops, OrderedMap.find? "b" (ofModel means).measures = some ops ∧
    .mean ∈ ops ∧ .min ∈ ops ∧ .max ∈ ops := by
  obtain ⟨ops, hops, hown, hfirst, -⟩ := extremes_iff (m := means) (c := .y) rfl
    (List.mem_of_getElem? (i := 1) rfl) ⟨rfl, by decide, rfl⟩ rfl
  exact ⟨ops, hops, hown, hfirst rfl⟩

/-- Not every measure whose scale wants the values before the aggregate has the extremes. -/
theorem extremes_missing : ¬ ∀ (m : Model) (c : Channel) (d : FieldDef) (op : AggregateOp)
    (field : String), m.unit?.isSome → (c, d) ∈ m.fieldDefs → Summarizes d op field →
    d.isUnaggregated = true →
    ∃ ops, OrderedMap.find? field (ofModel m).measures = some ops ∧ .min ∈ ops ∧ .max ∈ ops := by
  intro h
  obtain ⟨ops, hops, hmin, -⟩ := h means .tooltip _ .mean "d" rfl
    (List.mem_of_getElem? (i := 4) rfl) ⟨rfl, by decide, rfl⟩ rfl
  obtain rfl : [.mean] = ops := Option.some.inj hops
  exact absurd hmin (by decide)

end Aggregation

end ChartPipeline
