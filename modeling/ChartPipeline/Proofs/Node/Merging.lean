import ChartPipeline.Proofs.Compile.Coercions
import ChartPipeline.Proofs.Node.Measures

/-!
# Merging

Coercions of several models are merged where data is shared, and measures where aggregates are
joined. Either is a union in order: what is there keeps its place, and what is new follows. Both are
associative, so it does not matter how coercions are grouped when they are merged
(`Coercions.merge_monoid`), and measures are the same set from either side
(`Aggregation.merge_union`).
-/

namespace ChartPipeline

open OrderedMap (find?)

namespace Coercions

variable {a b c : Coercions} {cs ds : List Coercions}

inductive Grouping where
  | empty
  | one (c : Coercions)
  | join (first second : Grouping)

namespace Grouping

def parts : Grouping → List Coercions
  | empty => []
  | one c => [c]
  | join first second => first.parts ++ second.parts

def merged : Grouping → Coercions
  | empty => []
  | one c => c
  | join first second => first.merged.merge second.merged

end Grouping

theorem nodup_keys_merge (ha : a.keys.Nodup) (b : Coercions) : (a.merge b).keys.Nodup :=
  OrderedMap.nodup_keys_union ha b

theorem merge_assoc (ha : a.keys.Nodup) (hb : b.keys.Nodup) (c : Coercions) :
    (a.merge b).merge c = a.merge (b.merge c) :=
  OrderedMap.union_assoc ha hb

theorem nil_merge (ha : a.keys.Nodup) : merge [] a = a := OrderedMap.nil_union ha

/-- Coercions that are merged one by one into others can as well be merged first. -/
theorem foldl_merge_eq (hc : c.keys.Nodup) (hcs : ∀ d ∈ cs, d.keys.Nodup) :
    cs.foldl merge c = c.merge (mergeAll cs) := by
  induction cs generalizing c with
  | nil => rfl
  | cons d cs ih =>
    obtain ⟨hd, hcs⟩ := List.forall_mem_cons.mp hcs
    have hfirst : mergeAll (d :: cs) = d.merge (mergeAll cs) := by
      rw [← ih hd hcs, mergeAll, List.foldl_cons, nil_merge hd]
    rw [List.foldl_cons, ih (nodup_keys_merge hc d) hcs, hfirst, merge_assoc hc hd]

theorem mergeAll_append (hds : ∀ d ∈ ds, d.keys.Nodup) :
    mergeAll (cs ++ ds) = (mergeAll cs).merge (mergeAll ds) := by
  rw [mergeAll, List.foldl_append]
  exact foldl_merge_eq (nodup_keys_mergeAll cs) hds

/-- However coercions are grouped, the same comes of it as when they are taken one by one. -/
theorem Grouping.merged_eq {g : Grouping} (h : ∀ d ∈ g.parts, d.keys.Nodup) :
    g.merged = mergeAll g.parts := by
  induction g with
  | empty => rfl
  | one c => exact (nil_merge (h c List.mem_cons_self)).symm
  | join first second ihf ihs =>
    obtain ⟨hf, hs⟩ := List.forall_mem_append.mp h
    rw [merged, parts, ihf hf, ihs hs, mergeAll_append hs]

theorem coercions_seed (id : NodeId) (s : Source) (below : Forest Vertex) (t : Assembly.Trail) :
    ((Assembly.seed id s below).run t).1.coercions =
      mergeAll (below.roots.filterMap (·.node.coercions?)) := by
  obtain ⟨-, -, n, -, hr, -⟩ := Assembly.seed_adds id s below t
  rw [hr, Session.coercions_seedRecord]

/-- Coercions with distinct fields are a monoid in which everything is idempotent. Fields keep the
place of the first side and new ones follow, while kinds are those of the second side. So the
coercions that a source starts with are those below it, merged in any grouping. -/
theorem merge_monoid (ha : a.keys.Nodup) (hb : b.keys.Nodup) (c : Coercions) :
    (a.merge b).merge c = a.merge (b.merge c) ∧
      merge [] a = a ∧ a.merge [] = a ∧ a.merge a = a ∧
      (a.merge b).keys.Nodup ∧ (a.merge b).keys = a.keys ++ b.keys.filter (· ∉ a.keys) ∧
      (∀ field, find? field (a.merge b) = (find? field b).or (find? field a)) ∧
      ∀ (g : Grouping) (id : NodeId) (s : Source) (below : Forest Vertex) (t : Assembly.Trail),
        below.roots.filterMap (·.node.coercions?) = g.parts → (∀ d ∈ g.parts, d.keys.Nodup) →
        ((Assembly.seed id s below).run t).1.coercions = g.merged := by
  refine ⟨merge_assoc ha hb c, nil_merge ha, OrderedMap.union_nil a, OrderedMap.union_self ha,
    nodup_keys_merge ha b, ?_, fun field => ?_, ?_⟩
  · rw [merge, OrderedMap.keys_union, OrderedSet.union_eq_append hb]
  · rw [merge, OrderedMap.find?_union, OrderedMap.last?_eq_find? hb]
  · intro g id s below t hparts hg
    rw [coercions_seed, hparts, Grouping.merged_eq hg]

def measured : Coercions := [("x", "number"), ("y", "date")]
def dated : Coercions := [("z", "string"), ("x", "date")]
def spelled : Coercions := [("y", "string")]

/-- The second of three models that read a source replaces a kind, and so does the third. -/
theorem merge_monoid_sample : (measured.merge dated).keys = ["x", "y", "z"] ∧
    find? "x" (measured.merge dated) = some "date" ∧
    ((Assembly.seed 0 (.ofData { url := some "a.json" }) (.leaves [⟨1, .parse measured⟩,
      ⟨2, .parse dated⟩, ⟨3, .parse spelled⟩])).run {}).1.coercions =
        measured.merge (dated.merge spelled) := by
  obtain ⟨-, -, -, -, -, hkeys, hkinds, hgrouped⟩ :=
    merge_monoid (a := measured) (b := dated) (by decide) (by decide) spelled
  refine ⟨hkeys, hkinds "x", ?_⟩
  exact hgrouped (.join (.one measured) (.join (.one dated) (.one spelled))) 0 _ _ _ rfl (by decide)

end Coercions

-- ---------------------------------------------------------------------------
-- Measures
-- ---------------------------------------------------------------------------

namespace Aggregation

variable {a b c : Aggregation} {field : String} {ops : List AggregateOp}
  {measures more : OrderedMap String (List AggregateOp)}

theorem keys_addOps (measures : OrderedMap String (List AggregateOp)) (field : String)
    (ops : List AggregateOp) :
    (addOps measures field ops).keys = OrderedSet.add measures.keys field :=
  OrderedMap.keys_put_eq_add ..

theorem keys_foldl_addOps (measures more : OrderedMap String (List AggregateOp)) :
    (more.foldl (fun m entry => addOps m entry.1 entry.2) measures).keys =
      OrderedSet.union measures.keys more.keys := by
  induction more generalizing measures with
  | nil => rfl
  | cons entry more ih =>
    rw [List.foldl_cons, ih, keys_addOps, OrderedMap.keys_cons, OrderedSet.union_cons]

theorem opsOf_cons (entry : String × List AggregateOp)
    (more : OrderedMap String (List AggregateOp)) :
    opsOf (entry :: more) field = if entry.1 = field then entry.2 else opsOf more field := by
  unfold opsOf
  rw [find?]
  split <;> rfl

theorem opsOf_eq_nil (h : field ∉ measures.keys) : opsOf measures field = [] := by
  rw [opsOf, OrderedMap.find?_eq_none_of_notMem h, Option.getD_none]

theorem opsOf_foldl_addOps (h : more.keys.Nodup) :
    opsOf (more.foldl (fun m entry => addOps m entry.1 entry.2) measures) field =
      OrderedSet.union (opsOf measures field) (opsOf more field) := by
  induction more generalizing measures with
  | nil => rfl
  | cons entry more ih =>
    obtain ⟨hentry, h⟩ := List.nodup_cons.mp h
    rw [List.foldl_cons, ih h, opsOf_addOps, opsOf_cons]
    by_cases he : entry.1 = field
    · subst he
      rw [if_pos rfl, if_pos rfl, opsOf_eq_nil hentry]
      rfl
    · rw [if_neg (Ne.symm he), if_neg he]

theorem keys_merge (a b : Aggregation) :
    (a.merge b).measures.keys = OrderedSet.union a.measures.keys b.measures.keys :=
  keys_foldl_addOps ..

theorem opsOf_merge (a : Aggregation) (hb : b.Distinct) (field : String) :
    opsOf (a.merge b).measures field =
      OrderedSet.union (opsOf a.measures field) (opsOf b.measures field) :=
  opsOf_foldl_addOps hb.fields

theorem Distinct.merge (ha : a.Distinct) (hb : b.Distinct) : (a.merge b).Distinct where
  dimensions := ha.dimensions
  fields := by
    rw [keys_merge]
    exact OrderedSet.nodup_union ha.fields _
  ops field := by
    rw [opsOf_merge a hb]
    exact OrderedSet.nodup_union (ha.ops field) _

theorem find?_measures (measures : OrderedMap String (List AggregateOp)) (field : String) :
    find? field measures = if field ∈ measures.keys then some (opsOf measures field) else none := by
  cases h : find? field measures with
  | none => rw [if_neg (OrderedMap.notMem_of_find? h)]
  | some ops =>
    have hmem : field ∈ measures.keys := List.mem_map_of_mem (OrderedMap.mem_of_find? h)
    rw [if_pos hmem, opsOf, h, Option.getD_some]

/-- Distinct measures are known by their fields and by the operators over each. -/
theorem Distinct.ext (ha : a.Distinct) (hdimensions : a.dimensions = b.dimensions)
    (hfields : a.measures.keys = b.measures.keys)
    (hops : ∀ field, opsOf a.measures field = opsOf b.measures field) : a = b := by
  have hmeasures : a.measures = b.measures := by
    refine OrderedMap.ext ha.fields hfields fun field => ?_
    rw [find?_measures, find?_measures, hfields, hops]
  cases a
  cases b
  exact congrArg₂ Aggregation.mk hdimensions hmeasures

theorem Distinct.pairs_eq (h : a.Distinct) :
    a.pairs = a.measures.keys.flatMap fun field => (opsOf a.measures field).map (·, field) := by
  rw [pairs, OrderedMap.keys, List.flatMap_map]
  refine List.flatMap_congr fun entry hentry => ?_
  rw [opsOf, OrderedMap.find?_of_mem h.fields hentry, Option.getD_some]

theorem mem_pairs_merge (ha : a.Distinct) (hb : b.Distinct) (pair : AggregateOp × String) :
    pair ∈ (a.merge b).pairs ↔ pair ∈ a.pairs ∨ pair ∈ b.pairs := by
  obtain ⟨op, field⟩ := pair
  rw [mem_pairs_iff (ha.merge hb), mem_pairs_iff ha, mem_pairs_iff hb, opsOf_merge a hb,
    OrderedSet.mem_union]

theorem merge_assoc (ha : a.Distinct) (hb : b.Distinct) (hc : c.Distinct) :
    (a.merge b).merge c = a.merge (b.merge c) := by
  refine ((ha.merge hb).merge hc).ext rfl ?_ fun field => ?_
  · simp only [keys_merge, OrderedSet.union_assoc]
  · rw [opsOf_merge _ hc, opsOf_merge a hb, opsOf_merge a (hb.merge hc), opsOf_merge b hc,
      OrderedSet.union_assoc]

theorem merge_merge_self (ha : a.Distinct) (hb : b.Distinct) :
    (a.merge b).merge b = a.merge b := by
  refine ((ha.merge hb).merge hb).ext rfl ?_ fun field => ?_
  · rw [keys_merge, OrderedSet.union_eq_self]
    exact fun field hfield => keys_merge a b ▸ OrderedSet.mem_union.mpr (.inr hfield)
  · rw [opsOf_merge _ hb, OrderedSet.union_eq_self]
    exact fun op hop => opsOf_merge a hb field ▸ OrderedSet.mem_union.mpr (.inr hop)

/-- What a transform writes for measures: two lists of the same length, the operators and the
fields, neither of them if there are no measures. -/
def Writes (t : Transform) (groupby : List String) (pairs : List (AggregateOp × String)) : Prop :=
  ∃ ops fields : List String, t.toJson = .object (("type", .string "aggregate") ::
      ("groupby", Json.strings groupby) ::
        if ops.isEmpty then [] else [("ops", Json.strings ops), ("fields", Json.strings fields)]) ∧
    ops.length = fields.length ∧ ops.zip fields = pairs.map fun p => (p.1.name, p.2)

theorem writes_transform (a : Aggregation) : Writes a.transform a.dimensions a.pairs := by
  refine ⟨a.pairs.map (·.1.name), a.pairs.map Prod.snd, ?_, ?_, List.zip_map' ..⟩
  · simp [transform, Transform.toJson, Transform.members]
  · rw [List.length_map, List.length_map]

/-- Merging measures is a union in order. The groups stay, and the measures of both sides are
written down once each: fields and operators that are there keep their places, and new ones follow.
Merging is associative and idempotent, and from either side the same measures come of it. -/
theorem merge_union (ha : a.Distinct) (hb : b.Distinct) (hc : c.Distinct) :
    Writes (a.merge b).transform a.dimensions (a.merge b).pairs ∧
      ((a.merge b).pairs = (a.merge b).measures.keys.flatMap fun field =>
        (opsOf (a.merge b).measures field).map (·, field)) ∧
      (a.merge b).measures.keys =
        a.measures.keys ++ b.measures.keys.filter (· ∉ a.measures.keys) ∧
      (∀ field, opsOf (a.merge b).measures field = opsOf a.measures field ++
        (opsOf b.measures field).filter (· ∉ opsOf a.measures field)) ∧
      (a.merge b).pairs.Nodup ∧
      (∀ pair, pair ∈ (a.merge b).pairs ↔ pair ∈ a.pairs ∨ pair ∈ b.pairs) ∧
      (a.merge b).merge c = a.merge (b.merge c) ∧ (a.merge b).merge b = a.merge b ∧
      ∀ pair, pair ∈ (a.merge b).pairs ↔ pair ∈ (b.merge a).pairs := by
  have hdistinct := ha.merge hb
  refine ⟨writes_transform (a.merge b), hdistinct.pairs_eq, ?_, fun field => ?_,
    hdistinct.nodup_pairs, mem_pairs_merge ha hb, merge_assoc ha hb hc, merge_merge_self ha hb,
    fun pair => ?_⟩
  · rw [keys_merge, OrderedSet.union_eq_append hb.fields]
  · rw [opsOf_merge a hb, OrderedSet.union_eq_append (hb.ops field)]
  · rw [mem_pairs_merge ha hb, mem_pairs_merge hb ha, or_comm]

theorem distinct_of_forall_nodup (hdimensions : a.dimensions.Nodup)
    (hfields : a.measures.keys.Nodup) (hops : ∀ entry ∈ a.measures, entry.2.Nodup) :
    a.Distinct := by
  refine ⟨hdimensions, hfields, fun field => ?_⟩
  unfold opsOf
  cases h : find? field a.measures with
  | none => exact List.nodup_nil
  | some ops => exact hops _ (OrderedMap.mem_of_find? h)

def sums : Aggregation where
  dimensions := ["g"]
  measures := [("x", [.sum])]

def ranges : Aggregation where
  dimensions := ["h"]
  measures := [("y", [.min, .max]), ("x", [.max, .sum])]

/-- The sum of a field is not computed again, and its maximum follows. -/
theorem merge_union_sample :
    (sums.merge ranges).pairs = [(.sum, "x"), (.max, "x"), (.min, "y"), (.max, "y")] ∧
      (sums.merge ranges).merge sums = sums.merge (ranges.merge sums) ∧
      (sums.merge ranges).merge ranges = sums.merge ranges := by
  have hsums : sums.Distinct := distinct_of_forall_nodup (by decide) (by decide) (by decide)
  have hranges : ranges.Distinct := distinct_of_forall_nodup (by decide) (by decide) (by decide)
  obtain ⟨-, hpairs, -, -, -, -, hassoc, hself, -⟩ := merge_union hsums hranges hsums
  exact ⟨hpairs, hassoc, hself⟩

end Aggregation

end ChartPipeline
