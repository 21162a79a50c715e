import ChartPipeline.Chart.Shorthand
import ChartPipeline.Proofs.Json.Number
import ChartPipeline.Proofs.Model.Derivation

/-!
# The grammar of field shorthands

A shorthand is a field, or a function of a field, with or without a type (`Written`). The reader
takes a function if the text starts with one, and never goes back to an earlier choice. Still it
reads the texts of the grammar and no others, each as the definition that it is written for
(`parse_eq_iff`).
-/

namespace ChartPipeline.Shorthand

open Text
open Json (Stops span_append)

-- ---------------------------------------------------------------------------
-- The grammar
-- ---------------------------------------------------------------------------

def Blanks (s : List Char) : Prop := ∀ c ∈ s, c = ' ' ∨ c = '\t' ∨ c = '\r' ∨ c = '\n'

def Free (s : List Char) : Prop := ∀ c ∈ s, c ≠ '(' ∧ c ≠ ')' ∧ c ≠ ':'

def Function.word : Function → String
  | .bin => "bin"
  | .aggregate op => op.name
  | .timeUnit unit => unit.name

inductive Typed : List Char → Option FieldType → Prop
  | untyped : Typed [] none
  | typed {before between after : List Char} {word : String} {t : FieldType} :
      word = t.name ∨ word = t.initial → Blanks before → Blanks between → Blanks after →
      Typed (before ++ ':' :: (between ++ word.toList ++ after)) (some t)

def fieldOf (s : List Char) : Option String :=
  if trim s = [] then none else some (String.ofList (trim s))

/-- A function of a field, and the type. A count is quantitative if nothing else is said. -/
def Function.definition (field : Option String) (fieldType : Option FieldType) :
    Function → FieldDef
  | .bin => { field, fieldType, bin := some {} }
  | .aggregate op =>
    { field, aggregate := some op,
      fieldType := if op = .count then fieldType.or (some .quantitative) else fieldType }
  | .timeUnit unit => { field, fieldType, timeUnit := some unit }

/-- The texts that are shorthands, and the definitions that they are written for. Only a count may
do without a field. -/
inductive Written : List Char → FieldDef → Prop
  | plain {u rest : List Char} {fieldType : Option FieldType} :
      Free u → trim u ≠ [] → Typed rest fieldType →
      Written (u ++ rest) { field := some (String.ofList (trim u)), fieldType }
  | call {before between u after rest : List Char} {fieldType : Option FieldType} (f : Function) :
      Blanks before → Blanks between → Blanks after → Free u →
      trim u ≠ [] ∨ f = .aggregate .count → Typed rest fieldType →
      Written (before ++ f.word.toList ++ between ++ '(' :: (u ++ ')' :: (after ++ rest)))
        (f.definition (fieldOf u) fieldType)

variable {s t u rest before between after name : List Char} {c : Char} {p : Char → Bool}
  {fieldType : Option FieldType} {field : Option String} {f : Function} {d : FieldDef}

-- ---------------------------------------------------------------------------
-- Blanks and white space
-- ---------------------------------------------------------------------------

theorem isBlank_iff : isBlank c = true ↔ c = ' ' ∨ c = '\t' ∨ c = '\r' ∨ c = '\n' := by
  simp [isBlank, or_assoc]

theorem isWhiteSpace_of_isBlank (h : isBlank c = true) : isWhiteSpace c = true := by
  rcases isBlank_iff.mp h with rfl | rfl | rfl | rfl <;> decide

theorem Blanks.all (h : Blanks s) : ∀ c ∈ s, isBlank c = true :=
  fun c hc => isBlank_iff.mpr (h c hc)

theorem Blanks.free (h : Blanks s) : Free s := by
  intro c hc
  rcases h c hc with rfl | rfl | rfl | rfl <;> decide

theorem Free.append (hs : Free s) (ht : Free t) : Free (s ++ t) :=
  List.forall_mem_append.mpr ⟨hs, ht⟩

theorem of_mem_takeWhile (h : c ∈ s.takeWhile p) : p c = true :=
  List.all_eq_true.mp List.all_takeWhile c h

theorem exists_blanks (s : List Char) : ∃ w, Blanks w ∧ s = w ++ skipBlanks s := by
  refine ⟨s.takeWhile isBlank, fun c hc => ?_, List.takeWhile_append_dropWhile.symm⟩
  exact isBlank_iff.mp (of_mem_takeWhile hc)

theorem stops_dropWhile (p : Char → Bool) (s : List Char) : Stops p (s.dropWhile p) := by
  intro c hc
  have h := List.head?_dropWhile_not p s
  rw [hc] at h
  simpa using h

theorem skipBlanks_cons (h : isBlank c = false) (s : List Char) : skipBlanks (c :: s) = c :: s := by
  simp [skipBlanks, h]

theorem skipBlanks_append_cons (h : isBlank c = false) (s t : List Char) :
    skipBlanks (s ++ c :: t) = skipBlanks s ++ c :: t := by
  rw [skipBlanks, List.dropWhile_append]
  split
  · rename_i hempty
    rw [skipBlanks, List.isEmpty_iff.mp hempty]
    exact skipBlanks_cons h t
  · rfl

theorem skipBlanks_of_stops (h : Stops isBlank s) : skipBlanks s = s := by
  cases s with
  | nil => rfl
  | cons c s => exact skipBlanks_cons (h c rfl) s

theorem skipBlanks_skipBlanks (s : List Char) : skipBlanks (skipBlanks s) = skipBlanks s :=
  skipBlanks_of_stops (stops_dropWhile isBlank s)

theorem stops_cons (h : p c = false) (s : List Char) : Stops p (c :: s) := by
  rintro _ ⟨⟩
  exact h

theorem Blanks.skip (h : Blanks s) (t : List Char) : skipBlanks (s ++ t) = skipBlanks t :=
  List.dropWhile_append_of_pos h.all

def strip (p : Char → Bool) (s : List Char) : List Char :=
  ((s.dropWhile p).reverse.dropWhile p).reverse

theorem strip_append_left (h : ∀ c ∈ s, p c = true) (t : List Char) :
    strip p (s ++ t) = strip p t := by
  simp only [strip, List.dropWhile_append_of_pos h]

theorem strip_append_right (h : ∀ c ∈ t, p c = true) (s : List Char) :
    strip p (s ++ t) = strip p s := by
  have hreverse : ∀ c ∈ t.reverse, p c = true := fun c hc => h c (List.mem_reverse.mp hc)
  have hnone : t.dropWhile p = [] := by
    rw [← List.append_nil t, List.dropWhile_append_of_pos h, List.dropWhile_nil]
  simp only [strip, List.dropWhile_append]
  split
  · rename_i hempty
    simp [hnone, List.isEmpty_iff.mp hempty]
  · rw [List.reverse_append, List.dropWhile_append_of_pos hreverse]

theorem exists_strip (p : Char → Bool) (s : List Char) :
    ∃ first last, s = first ++ strip p s ++ last ∧ (∀ c ∈ first, p c = true) ∧
      ∀ c ∈ last, p c = true := by
  refine ⟨s.takeWhile p, ((s.dropWhile p).reverse.takeWhile p).reverse, ?_,
    fun c hc => of_mem_takeWhile hc,
    fun c hc => of_mem_takeWhile (List.mem_reverse.mp hc)⟩
  rw [strip, List.append_assoc, ← List.reverse_append, List.takeWhile_append_dropWhile,
    List.reverse_reverse, List.takeWhile_append_dropWhile]

theorem trim_append_left (h : Blanks s) (t : List Char) : trim (s ++ t) = trim t :=
  strip_append_left (fun c hc => isWhiteSpace_of_isBlank (h.all c hc)) t

theorem trim_append_right (h : Blanks t) (s : List Char) : trim (s ++ t) = trim s :=
  strip_append_right (fun c hc => isWhiteSpace_of_isBlank (h.all c hc)) s

-- ---------------------------------------------------------------------------
-- Words
-- ---------------------------------------------------------------------------

theorem wordNamed?_eq_some {α : Type} {all : List α} {text : String} {a : α} (name : α → String)
    (h : wordNamed? all name text = some a) : text = name a := by
  have hname := List.find?_some h
  exact (beq_iff_eq.mp hname).symm

theorem ofName?_eq_some_iff {text : String} {t : FieldType} :
    FieldType.ofName? text = some t ↔ text = t.name ∨ text = t.initial := by
  constructor
  · intro h
    rw [FieldType.ofName?, Option.orElse_eq_orElse, Option.orElse_eq_or, Option.or_eq_some_iff] at h
    rcases h with h | ⟨-, h⟩
    · exact .inl (wordNamed?_eq_some _ h)
    · exact .inr (wordNamed?_eq_some _ h)
  · rintro (rfl | rfl) <;> cases t <;> decide

theorem Function.ofName?_eq_some_iff {text : String} :
    Function.ofName? text = some f ↔ text = f.word := by
  constructor
  · intro h
    unfold Function.ofName? at h
    split at h
    · cases h
      assumption
    · split at h
      · rename_i op hop
        cases h
        exact wordNamed?_eq_some AggregateOp.name hop
      · obtain ⟨unit, hunit, rfl⟩ := Option.map_eq_some_iff.mp h
        exact wordNamed?_eq_some TimeUnit.name hunit
  · rintro rfl
    cases f with
    | bin => rfl
    | aggregate op => cases op <;> decide
    | timeUnit unit => cases unit <;> decide

theorem Function.exists_word (f : Function) :
    ∃ c word, f.word.toList = c :: word ∧ isLetter c = true ∧
      word.all isLetterOrDigit = true := by
  cases f with
  | bin => exact ⟨_, _, rfl, by decide, by decide⟩
  | aggregate op => cases op <;> exact ⟨_, _, rfl, by decide, by decide⟩
  | timeUnit unit => cases unit <;> exact ⟨_, _, rfl, by decide, by decide⟩

-- ---------------------------------------------------------------------------
-- Tokens
-- ---------------------------------------------------------------------------

theorem spaced_eq_some {α : Type} {token : List Char → Token α} {a : α} :
    spaced token s = some (a, rest) ↔
      ∃ t, token (skipBlanks s) = some (a, t) ∧ skipBlanks t = rest := by
  simp [spaced]

theorem spaced_char (h : isBlank c = false) (s : List Char) :
    spaced (char c) (c :: s) = some ((), skipBlanks s) := by
  simp [spaced_eq_some, skipBlanks_cons h, char]

theorem char_eq_some : char c s = some ((), rest) ↔ s = c :: rest := by
  cases s with
  | nil => simp [char]
  | cons d s => simp [char, eq_comm]

theorem eq_append_of_identifier (h : identifier s = some (name, rest)) : s = name ++ rest := by
  cases s with
  | nil => cases h
  | cons c s =>
    by_cases hc : isLetter c
    · rw [identifier, if_pos hc] at h
      cases h
      simp
    · rw [identifier, if_neg hc] at h
      cases h

theorem isLetterOrDigit_eq_false (h : isBlank c = true) : isLetterOrDigit c = false := by
  rcases isBlank_iff.mp h with rfl | rfl | rfl | rfl <;> decide

theorem isBlank_eq_false (h : isLetter c = true) : isBlank c = false := by
  by_contra hblank
  rcases isBlank_iff.mp (eq_true_of_ne_false hblank) with rfl | rfl | rfl | rfl <;>
    exact absurd h (by decide)

theorem Function.identifier_word (f : Function) (hb : Blanks before) (hm : Blanks between)
    (s : List Char) :
    spaced identifier (before ++ f.word.toList ++ between ++ '(' :: s) =
      some (f.word.toList, '(' :: s) := by
  obtain ⟨c, word, hword, hc, hall⟩ := f.exists_word
  have hstops : Stops isLetterOrDigit (between ++ '(' :: s) := by
    cases between with
    | nil => exact stops_cons (by decide) s
    | cons b between =>
      exact stops_cons (isLetterOrDigit_eq_false (hm.all b List.mem_cons_self)) _
  obtain ⟨htake, hdrop⟩ := span_append (List.all_eq_true.mp hall) hstops
  refine spaced_eq_some.mpr ⟨between ++ '(' :: s, ?_, ?_⟩
  · rw [List.append_assoc, List.append_assoc, hb.skip, hword, List.cons_append,
      skipBlanks_cons (isBlank_eq_false hc), identifier, if_pos hc, htake, hdrop]
  · rw [hm.skip, skipBlanks_cons (by decide)]

theorem isFieldChar_iff : isFieldChar c = true ↔ c ≠ '(' ∧ c ≠ ')' ∧ c ≠ ':' := by
  simp [isFieldChar, and_assoc]

theorem Free.all (h : Free s) : ∀ c ∈ s, isFieldChar c = true :=
  fun c hc => isFieldChar_iff.mpr (h c hc)

theorem exists_of_fieldName (h : fieldName s = some (name, rest)) :
    ∃ u, s = u ++ rest ∧ Free u ∧ name = trim u := by
  unfold fieldName at h
  dsimp only at h
  split at h
  · cases h
  · cases h
    exact ⟨_, List.takeWhile_append_dropWhile.symm,
      fun c hc => isFieldChar_iff.mp (of_mem_takeWhile hc), rfl⟩

theorem Free.fieldName (h : Free s) (hr : Stops isFieldChar rest) :
    fieldName (s ++ rest) = if s = [] then none else some (trim s, rest) := by
  obtain ⟨htake, hdrop⟩ := span_append h.all hr
  simp [Shorthand.fieldName, htake, hdrop]

theorem filter_trim (u : List Char) :
    ((some (trim u)).filter (!·.isEmpty)).map String.ofList = fieldOf u := by
  cases htrim : trim u <;> simp [fieldOf, htrim]

theorem exists_fieldName? (s : List Char) :
    ∃ u, s = u ++ (fieldName? s).2 ∧ Free u ∧
      ((fieldName? s).1.filter (!·.isEmpty)).map String.ofList = fieldOf u := by
  unfold fieldName?
  split
  · rename_i hname
    obtain ⟨u, rfl, hu, rfl⟩ := exists_of_fieldName hname
    exact ⟨u, rfl, hu, filter_trim u⟩
  · exact ⟨[], rfl, by simp [Free], rfl⟩

theorem Free.fieldName? (h : Free s) (hr : Stops isFieldChar rest) :
    (fieldName? (s ++ rest)).2 = rest ∧
      ((fieldName? (s ++ rest)).1.filter (!·.isEmpty)).map String.ofList = fieldOf s := by
  unfold Shorthand.fieldName?
  rw [h.fieldName hr]
  by_cases hs : s = []
  · simp [hs, fieldOf, trim]
  · simpa [hs] using filter_trim s

-- ---------------------------------------------------------------------------
-- Calls
-- ---------------------------------------------------------------------------

theorem fieldOf_append_left (h : Blanks s) (t : List Char) : fieldOf (s ++ t) = fieldOf t := by
  simp only [fieldOf, trim_append_left h]

theorem fieldOf_append_right (h : Blanks t) (s : List Char) : fieldOf (s ++ t) = fieldOf s := by
  simp only [fieldOf, trim_append_right h]

/-- The blanks at the ends of a field are skipped as tokens' blanks or trimmed with the name. -/
theorem exists_of_call {named : Option (List Char)} (h : call s = some ((name, named), rest)) :
    ∃ before between u after, Blanks before ∧ Blanks between ∧ Blanks after ∧ Free u ∧
      s = before ++ name ++ between ++ '(' :: (u ++ ')' :: (after ++ rest)) ∧
      (named.filter (!·.isEmpty)).map String.ofList = fieldOf u := by
  simp only [call, Option.bind_eq_bind, Option.bind_eq_some_iff, Prod.exists, spaced_eq_some] at h
  obtain ⟨_, _, ⟨t₁, hname, rfl⟩, _, _, ⟨t₂, hopen, rfl⟩, _, _, ⟨t₃, hclose, rfl⟩, h⟩ := h
  cases h
  obtain ⟨raw, hraw, hfree, hfield⟩ := exists_fieldName? (skipBlanks t₂)
  rw [skipBlanks_skipBlanks] at hopen
  generalize (fieldName? (skipBlanks t₂)).2 = t at hraw hclose
  obtain ⟨w₁, hw₁, hs⟩ := exists_blanks s
  obtain ⟨w₂, hw₂, ht₁⟩ := exists_blanks t₁
  obtain ⟨w₃, hw₃, ht₂⟩ := exists_blanks t₂
  obtain ⟨w₄, hw₄, ht⟩ := exists_blanks t
  obtain ⟨w₅, hw₅, ht₃⟩ := exists_blanks t₃
  refine ⟨w₁, w₂, w₃ ++ raw ++ w₄, w₅, hw₁, hw₂, hw₅, ?_, ?_, ?_⟩
  · exact (hw₃.free.append hfree).append hw₄.free
  · rw [hs, eq_append_of_identifier hname, ht₁, char_eq_some.mp hopen, ht₂, hraw, ht,
      char_eq_some.mp hclose, ← ht₃]
    simp
  · rw [fieldOf_append_right hw₄, fieldOf_append_left hw₃, hfield]

theorem call_eq_none (h : '(' ∉ s) : call s = none := by
  refine Option.eq_none_iff_forall_ne_some.mpr ?_
  rintro ⟨⟨name, named⟩, rest⟩ hcall
  obtain ⟨before, between, u, after, -, -, -, -, rfl, -⟩ := exists_of_call hcall
  simp at h

theorem call_word (f : Function) (hb : Blanks before) (hm : Blanks between) (ha : Blanks after)
    (hu : Free u) (rest : List Char) :
    ∃ named, call (before ++ f.word.toList ++ between ++ '(' :: (u ++ ')' :: (after ++ rest))) =
        some ((f.word.toList, named), skipBlanks rest) ∧
      (named.filter (!·.isEmpty)).map String.ofList = fieldOf u := by
  obtain ⟨w, hw, hskip⟩ := exists_blanks u
  have hfree : Free (skipBlanks u) := fun c hc => hu c (hskip ▸ List.mem_append_right w hc)
  obtain ⟨hrest, hfield⟩ := hfree.fieldName? (stops_cons (c := ')') rfl (after ++ rest))
  have hopen : spaced (char '(') ('(' :: (u ++ ')' :: (after ++ rest))) =
      some ((), skipBlanks u ++ ')' :: (after ++ rest)) := by
    rw [spaced_char (by decide), skipBlanks_append_cons (by decide)]
  have hclose : spaced (char ')') (')' :: (after ++ rest)) = some ((), skipBlanks rest) := by
    rw [spaced_char (by decide), ha.skip]
  refine ⟨(Shorthand.fieldName? (skipBlanks u ++ ')' :: (after ++ rest))).1, ?_, ?_⟩
  · simp only [call, f.identifier_word hb hm, hopen, hrest, hclose, Option.bind_eq_bind,
      Option.bind_some, Option.pure_def]
  · rw [hfield, ← fieldOf_append_left hw, ← hskip]

-- ---------------------------------------------------------------------------
-- Types
-- ---------------------------------------------------------------------------

theorem strip_word {word : String} {t : FieldType} (h : word = t.name ∨ word = t.initial) :
    strip isBlank word.toList = word.toList := by
  rcases h with rfl | rfl <;> cases t <;> decide

theorem tail_of_colon (h : skipBlanks s = ':' :: t) :
    tail s = (FieldType.ofName? (String.ofList (trimBlanks t))).map some := by
  cases s with
  | nil => cases h
  | cons c s => simp [tail, h, char, Option.map_eq_bind]

theorem exists_of_tail (h : tail s = some fieldType) :
    s = [] ∧ fieldType = none ∨ ∃ t, skipBlanks s = ':' :: t := by
  cases s with
  | nil =>
    cases h
    exact .inl ⟨rfl, rfl⟩
  | cons c s =>
    simp only [tail, Option.bind_eq_bind, Option.bind_eq_some_iff, Prod.exists] at h
    obtain ⟨_, t, hcolon, -⟩ := h
    exact .inr ⟨t, char_eq_some.mp hcolon⟩

theorem tail_eq_some_iff : tail s = some fieldType ↔ Typed s fieldType := by
  constructor
  · intro h
    rcases exists_of_tail h with ⟨rfl, rfl⟩ | ⟨r, hcolon⟩
    · exact .untyped
    · rw [tail_of_colon hcolon] at h
      obtain ⟨t, ht, rfl⟩ := Option.map_eq_some_iff.mp h
      obtain ⟨w, hw, hs⟩ := exists_blanks s
      obtain ⟨first, last, hr, hfirst, hlast⟩ := exists_strip isBlank r
      have htyped := Typed.typed (ofName?_eq_some_iff.mp ht) hw
        (fun c hc => isBlank_iff.mp (hfirst c hc)) (fun c hc => isBlank_iff.mp (hlast c hc))
      rw [String.toList_ofList] at htyped
      rw [hs, hcolon, hr]
      exact htyped
  · rintro (_ | ⟨hword, hb, hm, ha⟩)
    · rfl
    · rename_i between after word t
      have htrim : trimBlanks (between ++ word.toList ++ after) = word.toList := calc
        strip isBlank (between ++ word.toList ++ after)
        _ = strip isBlank word.toList := by
          rw [strip_append_right ha.all, strip_append_left hm.all]
        _ = word.toList := strip_word hword
      rw [tail_of_colon (by rw [hb.skip, skipBlanks_cons (by decide)]), htrim,
        String.ofList_toList, ofName?_eq_some_iff.mpr hword]
      rfl

theorem Typed.skip (h : Typed s fieldType) :
    Typed (skipBlanks s) fieldType ∧ Stops isFieldChar (skipBlanks s) := by
  cases h with
  | untyped => exact ⟨.untyped, by simp [Stops, skipBlanks]⟩
  | typed hword hb hm ha =>
    have hnone : Blanks [] := by simp [Blanks]
    rw [hb.skip, skipBlanks_cons (by decide)]
    exact ⟨.typed hword hnone hm ha, stops_cons (by decide) _⟩

theorem Blanks.bracket_notMem (h : Blanks s) : '(' ∉ s := by
  intro hs
  simpa using h _ hs

theorem Typed.bracket_notMem (h : Typed s fieldType) : '(' ∉ s := by
  cases h with
  | untyped => simp
  | @typed before between after word t hword hb hm ha =>
    have hfree : '(' ∉ word.toList := by
      rcases hword with rfl | rfl <;> cases t <;> decide
    simp [hb.bracket_notMem, hm.bracket_notMem, ha.bracket_notMem, hfree]

-- ---------------------------------------------------------------------------
-- Definitions
-- ---------------------------------------------------------------------------

theorem complete_apply :
    complete (Function.apply { field, fieldType } (some f)) = some d ↔
      (field ≠ none ∨ f = .aggregate .count) ∧ d = f.definition field fieldType := by
  cases f with
  | bin =>
    cases field <;>
      simp [complete, Function.apply, Function.definition, FieldDef.isCount, eq_comm]
  | aggregate op =>
    by_cases hop : op = .count
    · cases fieldType <;>
        simp [hop, complete, Function.apply, Function.definition, FieldDef.isCount, eq_comm]
    · cases field <;>
        simp [hop, complete, Function.apply, Function.definition, FieldDef.isCount, eq_comm]
  | timeUnit unit =>
    cases field <;>
      simp [complete, Function.apply, Function.definition, FieldDef.isCount, eq_comm]

theorem complete_plain :
    complete { field, fieldType } = some d ↔ field ≠ none ∧ d = { field, fieldType } := by
  cases field <;> simp [complete, FieldDef.isCount, eq_comm]

theorem fieldOf_ne_none : fieldOf u ≠ none ↔ trim u ≠ [] := by
  simp [fieldOf]

theorem fieldOf_of_ne_nil (h : trim u ≠ []) : fieldOf u = some (String.ofList (trim u)) :=
  if_neg h

theorem Function.exists_of_function? {function : Option Function}
    (h : function? (some name) = some function) :
    ∃ f : Function, function = some f ∧ name = f.word.toList := by
  obtain ⟨f, hf, rfl⟩ := Option.map_eq_some_iff.mp h
  refine ⟨f, rfl, ?_⟩
  rw [← Function.ofName?_eq_some_iff.mp hf, String.toList_ofList]

theorem function?_word (f : Function) : function? (some f.word.toList) = some (some f) := by
  simp [function?, Function.ofName?_eq_some_iff]

theorem written_of_parse? {text : String} (h : parse? text = some d) : Written text.toList d := by
  simp only [parse?, Option.bind_eq_bind, Option.bind_eq_some_iff, Prod.exists] at h
  obtain ⟨name, named, rest, hhead, fieldType, htail, function, hfunction, hd⟩ := h
  have htyped := tail_eq_some_iff.mp htail
  unfold head at hhead
  split at hhead
  · rename_i hcall
    cases hhead
    obtain ⟨before, between, u, after, hb, hm, ha, hu, hs, hfield⟩ := exists_of_call hcall
    obtain ⟨f, rfl, rfl⟩ := Function.exists_of_function? hfunction
    rw [hfield, complete_apply, fieldOf_ne_none] at hd
    obtain ⟨hne, rfl⟩ := hd
    rw [hs]
    exact .call f hb hm ha hu hne htyped
  · obtain ⟨⟨field, rest⟩, hname, hhead⟩ := Option.map_eq_some_iff.mp hhead
    cases hhead
    cases hfunction
    obtain ⟨u, hs, hu, rfl⟩ := exists_of_fieldName hname
    rw [Function.apply, filter_trim, complete_plain, fieldOf_ne_none] at hd
    obtain ⟨hne, rfl⟩ := hd
    rw [hs, fieldOf_of_ne_nil hne]
    exact .plain hu hne htyped

theorem parse?_of_head {text : String} {function : Option Function}
    {function' named : Option (List Char)}
    (hhead : head text.toList = some ((function', named), rest)) (htail : tail rest = some fieldType)
    (hfunction : function? function' = some function) :
    parse? text = complete (Function.apply
      { field := (named.filter (!·.isEmpty)).map String.ofList, fieldType } function) := by
  simp [parse?, hhead, htail, hfunction]

theorem parse?_of_written {text : String} (h : Written text.toList d) : parse? text = some d := by
  generalize hs : text.toList = s at h
  cases h with
  | @plain u rest fieldType hu hne ht =>
    -- The name takes the blanks before the colon with it, and is trimmed afterwards.
    obtain ⟨w, hw, hrest⟩ := exists_blanks rest
    obtain ⟨htyped, hstops⟩ := ht.skip
    -- Without a bracket the text cannot start with a call, so that the reader takes a field.
    have hcall : call (u ++ rest) = none := by
      refine call_eq_none (List.mem_append.not.mpr (not_or.mpr ⟨fun h => ?_, ht.bracket_notMem⟩))
      exact (hu _ h).1 rfl
    have hname : fieldName (u ++ rest) = some (trim u, skipBlanks rest) := by
      have hnil : u ++ w ≠ [] := by
        intro hnil
        obtain ⟨rfl, -⟩ := List.append_eq_nil_iff.mp hnil
        exact hne rfl
      conv_lhs => rw [hrest, ← List.append_assoc]
      rw [(hu.append hw.free).fieldName hstops, if_neg hnil, trim_append_right hw]
    have hhead : head text.toList = some ((none, some (trim u)), skipBlanks rest) := by
      simp [head, hs, hcall, hname]
    rw [parse?_of_head hhead (tail_eq_some_iff.mpr htyped) rfl, Function.apply, filter_trim,
      fieldOf_of_ne_nil hne, complete_plain]
    exact ⟨by simp, rfl⟩
  | @call before between u after rest fieldType f hb hm ha hu hne ht =>
    obtain ⟨named, hcall, hfield⟩ := call_word f hb hm ha hu rest
    have hhead : head text.toList = some ((some f.word.toList, named), skipBlanks rest) := by
      simp only [head, hs, hcall]
    rw [parse?_of_head hhead (tail_eq_some_iff.mpr ht.skip.1) (function?_word f), hfield,
      complete_apply, fieldOf_ne_none]
    exact ⟨hne, rfl⟩

theorem parse?_eq_some_iff {text : String} : parse? text = some d ↔ Written text.toList d :=
  ⟨written_of_parse?, parse?_of_written⟩

/-- A text is read as the definition that it is written for. Any other text is an error, which tells
the text. -/
theorem parse_eq_iff (s : String) :
    (∀ d, parse s = .ok d ↔ Written s.toList d) ∧
      (parse s = .error (.invalidShorthand s) ↔ ∀ d, ¬ Written s.toList d) := by
  simp only [← parse?_eq_some_iff, parse]
  cases parse? s with
  | none => simp
  | some d => simp

-- White space within brackets is no field: here a no-break space, which is no blank.
example : parse "count(\u00a0): o" =
    .ok { aggregate := some .count, fieldType := some .ordinal } := by
  rfl

end ChartPipeline.Shorthand
