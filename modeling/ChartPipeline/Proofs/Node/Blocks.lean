import ChartPipeline.Proofs.Node.Bins
import Mathlib.Data.List.Forall2
import Mathlib.Data.List.Nodup

/-!
# The transforms of a binning

A binning has one bin for each field that is binned, in the order in which the fields first are.
Just before a bin stands the extent that it refers to, unless its extent is given, and just behind
it the label of its range, if a channel needs that. No signal is defined twice
(`Binning.blocks_exact`).
-/

namespace ChartPipeline

def Model.binnedFields (m : Model) : List String :=
  (m.fieldDefs.filterMap fun entry => if entry.2.isBinned then entry.2.field else none).eraseDups

namespace Transform

def bin? : Transform → Option BinTransform
  | .bin b => some b
  | _ => none

def signal? : Transform → Option String
  | .bin b => some b.signal
  | .extent _ signal => some signal
  | _ => none

end Transform

namespace Binning

def bins (b : Binning) : List BinTransform := b.transforms.filterMap Transform.bin?

def signals (b : Binning) : List String := b.transforms.filterMap Transform.signal?

variable {m : Model} {numberFormat field other : String} {e : BinEntry} {es : List BinEntry}
  {entries : OrderedMap String BinEntry}

-- ---------------------------------------------------------------------------
-- Blocks
-- ---------------------------------------------------------------------------

/-- The bin is made as the first definition says that bins its field. -/
structure Made (m : Model) (b : BinTransform) : Prop where
  first : ∃ first, m.binner? b.field = some first ∧ first.2.binOn? first.1 = some b.params ∧
    b.start = first.2.derivedName (some .start) ∧ b.end = first.2.derivedName (some .end)
  maxbins : b.params.maxbins = some b.maxbins
  signal : b.signal = m.nameOf (b.field ++ "_bins")

/-- What stands before a bin: the extent that it refers to, unless that is given. -/
inductive Before (m : Model) (b : BinTransform) : List Transform → Prop
  | given {low high : Json.Number} (hp : b.params.extent = some (low, high))
      (he : b.extent = .literal low high) : Before m b []
  | computed {signal : String} (hp : b.params.extent = none) (he : b.extent = .signal signal)
      (hs : signal = m.nameOf (b.field ++ "_extent")) : Before m b [.extent b.field signal]

/-- What stands behind a bin: the label of its range, if a channel needs that. -/
inductive Behind (m : Model) (numberFormat : String) (b : BinTransform) : List Transform → Prop
  | labelled {first : Channel × FieldDef} (hl : m.LabelsBin b.field)
      (hf : m.binner? b.field = some first) : Behind m numberFormat b
        [.formula (label numberFormat b.start b.end) (first.2.derivedName (some .range))]
  | bare (hl : ¬ m.LabelsBin b.field) : Behind m numberFormat b []

inductive Block (m : Model) (numberFormat : String) (b : BinTransform) : List Transform → Prop
  | mk {before behind : List Transform} (hbefore : Before m b before)
      (hbehind : Behind m numberFormat b behind) :
      Block m numberFormat b (before ++ .bin b :: behind)

-- ---------------------------------------------------------------------------
-- Entries
-- ---------------------------------------------------------------------------

theorem keys_add (entries : OrderedMap String BinEntry) (e : BinEntry) :
    (add entries e).keys = OrderedSet.add entries.keys e.field := by
  unfold add
  split
  · exact OrderedMap.keys_put_eq_add ..
  · rename_i first hfirst
    have hmem : e.field ∈ entries.keys := List.mem_map_of_mem (OrderedMap.mem_of_find? hfirst)
    split
    · exact OrderedMap.keys_put_eq_add ..
    · exact (OrderedSet.add_of_mem hmem).symm

theorem keys_foldl_add (entries : OrderedMap String BinEntry) (es : List BinEntry) :
    (es.foldl add entries).keys = OrderedSet.union entries.keys (es.map (·.field)) := by
  induction es generalizing entries with
  | nil => rfl
  | cons e es ih => rw [List.foldl_cons, ih, keys_add, List.map_cons, OrderedSet.union_cons]

theorem map_field_request? (m : Model) (c : Channel) (d : FieldDef) :
    (request? m c d).map (·.field) = if d.isBinned then d.field else none := by
  unfold request? FieldDef.isBinned
  cases d.bin <;> cases d.field <;> rfl

theorem keys_ofModel (m : Model) (numberFormat : String) :
    (ofModel m numberFormat).entries.keys = m.binnedFields := by
  rw [ofModel, keys_foldl_add, map_snd_requests, List.map_filterMap]
  simp only [map_field_request?]
  exact OrderedSet.ofList_eq_eraseDups _

theorem names_of_request? {c : Channel} {d : FieldDef} (h : request? m c d = some e) :
    e.params.maxbins = some e.maxbins ∧ e.signal = m.nameOf (e.field ++ "_bins") ∧
      e.extentSignal = m.nameOf (e.field ++ "_extent") := by
  simp only [request?, bind, Option.bind_eq_some_iff] at h
  obtain ⟨_, -, _, -, h⟩ := h
  cases h
  exact ⟨rfl, rfl, rfl⟩

theorem names_of_find? (h : OrderedMap.find? field (ofModel m numberFormat).entries = some e) :
    e.params.maxbins = some e.maxbins ∧ e.signal = m.nameOf (e.field ++ "_bins") ∧
      e.extentSignal = m.nameOf (e.field ++ "_extent") := by
  rw [ofModel, find?_foldl_add rfl, Option.map_eq_some_iff] at h
  obtain ⟨r, hr, rfl⟩ := h
  have hmem := List.mem_of_find?_eq_some hr
  rw [map_snd_requests] at hmem
  obtain ⟨entry, -, hrequest⟩ := List.mem_filterMap.mp hmem
  exact (names_of_request? hrequest :)

def binOf (e : BinEntry) : BinTransform where
  field := e.field
  start := e.start
  «end» := e.end
  maxbins := e.maxbins
  extent := e.params.extent.elim (.signal e.extentSignal) fun (low, high) => .literal low high
  signal := e.signal
  params := e.params

theorem entryTransforms_eq (numberFormat : String) (e : BinEntry) :
    entryTransforms numberFormat e =
      (if e.params.extent.isSome then [] else [.extent e.field e.extentSignal]) ++ .bin (binOf e) ::
        if e.labelled then [.formula (label numberFormat e.start e.end) e.range] else [] := by
  unfold entryTransforms binOf
  cases e.params.extent <;> rfl

theorem filterMap_bin?_entryTransforms (numberFormat : String) (e : BinEntry) :
    (entryTransforms numberFormat e).filterMap Transform.bin? = [binOf e] := by
  rw [entryTransforms_eq]
  cases e.params.extent <;> cases e.labelled <;> rfl

theorem filterMap_signal?_entryTransforms (numberFormat : String) (e : BinEntry) :
    ((entryTransforms numberFormat e).filterMap Transform.signal?).Sublist
      [e.extentSignal, e.signal] := by
  rw [entryTransforms_eq]
  cases e.params.extent <;> cases e.labelled <;> simp [Transform.signal?, binOf]

theorem block_of_find? (h : OrderedMap.find? field (ofModel m numberFormat).entries = some e) :
    e.field = field ∧ Made m (binOf e) ∧
      Block m numberFormat (binOf e) (entryTransforms numberFormat e) := by
  obtain ⟨first, hfirst, htells, hlabelled⟩ := exists_binner_of_find? h
  obtain ⟨hmaxbins, hsignal, hextent⟩ := names_of_find? h
  obtain rfl : e.field = field :=
    Option.some.inj (htells.field.symm.trans (Model.of_binner? hfirst).2.2)
  refine ⟨rfl, ⟨⟨first, hfirst, htells.params, htells.start, htells.end⟩, hmaxbins, hsignal⟩, ?_⟩
  rw [entryTransforms_eq]
  refine .mk ?_ ?_
  · cases hp : e.params.extent with
    | none => exact .computed hp (by simp [binOf, hp]) hextent
    | some pair => exact .given hp (by simp [binOf, hp])
  · split
    · rw [htells.range]
      exact .labelled (hlabelled.mp ‹_›) hfirst
    · exact .bare (mt hlabelled.mpr ‹_›)

-- ---------------------------------------------------------------------------
-- Signals
-- ---------------------------------------------------------------------------

def signalNames (m : Model) (field : String) : List String :=
  [m.nameOf (field ++ "_extent"), m.nameOf (field ++ "_bins")]

theorem nameOf_inj {text text' : String} : m.nameOf text = m.nameOf text' ↔ text = text' := by
  unfold Model.nameOf joinName
  split <;> simp

theorem append_bins_ne_append_extent (field other : String) :
    field ++ "_bins" ≠ other ++ "_extent" := by
  intro h
  have hlast := congrArg (·.toList.getLast?) h
  simp at hlast

theorem field_of_mem_signalNames {name : String} (h : name ∈ signalNames m field)
    (h' : name ∈ signalNames m other) : field = other := by
  rcases List.mem_pair.mp h with rfl | rfl
  · rcases List.mem_pair.mp h' with he | he
    · simpa using nameOf_inj.mp he
    · exact absurd (nameOf_inj.mp he).symm (append_bins_ne_append_extent other field)
  · rcases List.mem_pair.mp h' with he | he
    · exact absurd (nameOf_inj.mp he) (append_bins_ne_append_extent field other)
    · simpa using nameOf_inj.mp he

theorem nodup_signalNames (m : Model) (field : String) : (signalNames m field).Nodup := by
  simp [signalNames, nameOf_inj]

theorem signals_sublist (h : OrderedMap.find? field (ofModel m numberFormat).entries = some e) :
    ((entryTransforms numberFormat e).filterMap Transform.signal?).Sublist
      (signalNames m field) := by
  obtain ⟨-, hsignal, hextent⟩ := names_of_find? h
  obtain ⟨rfl, -, -⟩ := block_of_find? h
  rw [signalNames, ← hextent, ← hsignal]
  exact filterMap_signal?_entryTransforms numberFormat e

theorem nodup_signals (m : Model) (numberFormat : String) :
    (ofModel m numberFormat).signals.Nodup := by
  have hkeys := nodup_keys_ofModel m numberFormat
  have hsignals {entry} (hentry : entry ∈ (ofModel m numberFormat).entries) :=
    signals_sublist (OrderedMap.find?_of_mem hkeys hentry)
  rw [signals, transforms, List.filterMap_flatMap]
  refine List.nodup_flatMap.mpr ⟨fun entry hentry => ?_, ?_⟩
  · exact (nodup_signalNames m entry.1).sublist (hsignals hentry)
  · refine (List.pairwise_map.mp hkeys).imp_of_mem fun ha hb hne name hname hname' => hne ?_
    exact field_of_mem_signalNames ((hsignals ha).subset hname) ((hsignals hb).subset hname')

-- ---------------------------------------------------------------------------
-- The transforms
-- ---------------------------------------------------------------------------

theorem bins_eq (m : Model) (numberFormat : String) : (ofModel m numberFormat).bins =
    (ofModel m numberFormat).entries.map fun entry => binOf entry.2 := by
  rw [bins, transforms, List.filterMap_flatMap, List.map_eq_flatMap]
  exact congrArg (List.flatMap · _) (funext fun entry => filterMap_bin?_entryTransforms _ entry.2)

/-- There is one bin for each field that a definition bins, in the order in which the fields first
are, and it is made as the first of these definitions says. Every bin has its block of transforms,
and there are no other transforms. All signals are different. -/
theorem blocks_exact (m : Model) (numberFormat : String) :
    (ofModel m numberFormat).bins.map (·.field) = m.binnedFields ∧
      (∀ b ∈ (ofModel m numberFormat).bins, Made m b) ∧
      (∃ blocks, List.Forall₂ (Block m numberFormat) (ofModel m numberFormat).bins blocks ∧
        (ofModel m numberFormat).transforms = blocks.flatten) ∧
      (ofModel m numberFormat).signals.Nodup := by
  have hblock {entry} (hentry : entry ∈ (ofModel m numberFormat).entries) :=
    block_of_find? (OrderedMap.find?_of_mem (nodup_keys_ofModel m numberFormat) hentry)
  rw [bins_eq]
  refine ⟨?_, ?_, ?_, nodup_signals m numberFormat⟩
  · rw [List.map_map, ← keys_ofModel m numberFormat]
    exact List.map_congr_left fun entry hentry => (hblock hentry).1
  · exact List.forall_mem_map.mpr fun entry hentry => (hblock hentry).2.1
  · refine ⟨(ofModel m numberFormat).entries.map fun entry => entryTransforms numberFormat entry.2,
      ?_, ?_⟩
    · rw [List.forall₂_map_left_iff, List.forall₂_map_right_iff, List.forall₂_same]
      exact fun entry hentry => (hblock hentry).2.2
    · exact List.flatMap_def ..

end Binning

end ChartPipeline
