import ChartPipeline.Node.Rows
import ChartPipeline.Proofs.Expression.DateTime
import ChartPipeline.Proofs.Json.Literal
import ChartPipeline.Proofs.Json.Number

/-!
# Quotations in expressions

Expressions are put together from fixed words, numbers and literals. A literal is read back
whatever stands around it, so reading an expression from left to right finds the names of fields and
the texts that were put into it, and nothing else (`Expression.quotations_exact`): no name and no
text can be taken for another part of the expression.
-/

namespace ChartPipeline

namespace Expression

open DatePart (places at?)
open Text (quoteChars)

/-- A literal in an expression: the name of a field in `datum["…"]`, or a text. -/
inductive Quotation where
  | field (name : String)
  | text (value : String)
deriving DecidableEq, Repr

/-- Whether `datum[` ends here. The text is given backwards. -/
def isReference (before : List Char) : Bool := ['[', 'm', 'u', 't', 'a', 'd'].isPrefixOf before

def Quotation.behind (before : List Char) (text : String) : Quotation :=
  if isReference before then .field text else .text text

/-- The literals of an expression from left to right: each begins at the first quote behind the one
before it. None is given if a literal does not end. What stands between two literals is kept
backwards. -/
def quotationsFrom (before : List Char) (s : List Char) : Option (List Quotation) :=
  match s with
  | [] => some []
  | c :: rest =>
    if c = '"' then
      match _h : Json.literal? (c :: rest) with
      | some (text, more) => (quotationsFrom [] more).map (.behind before text :: ·)
      | none => none
    else quotationsFrom (c :: before) rest
termination_by s.length
decreasing_by
  · exact Json.length_lt_of_literal? _h
  · exact Nat.lt_succ_self _

def quotations (expr : String) : Option (List Quotation) := quotationsFrom [] expr.toList

variable {α : Type} {s s' sep : String} {qs qs' : List Quotation} {before rest cs : List Char}

-- ---------------------------------------------------------------------------
-- Parts of expressions
-- ---------------------------------------------------------------------------

def isPlain (s : String) : Bool := s.toList.all fun c => c != '"' && c != '['

/-- A part of an expression has these literals, wherever it stands except behind `datum[`, and
nothing that follows it stands behind `datum[` either. -/
def Reads (s : String) (qs : List Quotation) : Prop :=
  ∀ before rest, isReference before = false → ∃ before', isReference before' = false ∧
    quotationsFrom before (s.toList ++ rest) = (quotationsFrom before' rest).map (qs ++ ·)

theorem quotationsFrom_append (h : '"' ∉ cs) (before rest : List Char) :
    quotationsFrom before (cs ++ rest) = quotationsFrom (cs.reverse ++ before) rest := by
  induction cs generalizing before with
  | nil => rfl
  | cons c cs ih =>
    obtain ⟨hc, hcs⟩ := not_or.mp (mt List.mem_cons.mpr h)
    rw [List.cons_append, quotationsFrom, if_neg (Ne.symm hc), ih hcs, List.reverse_cons,
      List.append_assoc, List.singleton_append]

theorem quotationsFrom_quote (s : String) (before rest : List Char) :
    quotationsFrom before (quoteChars s.toList ++ rest) =
      (quotationsFrom [] rest).map (.behind before s :: ·) := by
  have hread := Json.literal?_quoteChars s rest
  have hcons : quoteChars s.toList ++ rest =
      '"' :: (Text.escapeAll s.toList ++ ['"'] ++ rest) := rfl
  rw [hcons] at hread ⊢
  rw [quotationsFrom, if_pos rfl]
  split
  · rename_i he
    rw [hread] at he
    cases he
    rfl
  · rename_i he
    rw [hread] at he
    cases he

namespace Reads

theorem quotations_eq (h : Reads s qs) : quotations s = some qs := by
  obtain ⟨before, -, hread⟩ := h [] [] rfl
  rw [List.append_nil] at hread
  rw [quotations, hread, quotationsFrom]
  simp

theorem of_plain (hs : isPlain s = true) : Reads s [] := by
  intro before rest hb
  have h (c : Char) (hc : c ∈ s.toList) : c ≠ '"' ∧ c ≠ '[' := by
    simpa using List.all_eq_true.mp hs c hc
  have hlast : isReference (s.toList.reverse ++ before) = false := by
    cases hs : s.toList.reverse with
    | nil => exact hb
    | cons c cs =>
      have hc : c ∈ s.toList := List.mem_reverse.mp (hs ▸ List.mem_cons_self ..)
      simp [isReference, List.isPrefixOf, Ne.symm (h c hc).2]
  refine ⟨_, hlast, ?_⟩
  rw [quotationsFrom_append fun hq => (h _ hq).1 rfl]
  simp

theorem of_isNumeric (h : ∀ c ∈ s.toList, Json.isNumeric c = true) : Reads s [] := by
  refine of_plain (List.all_eq_true.mpr fun c hc => ?_)
  have hq : c ≠ '"' := by
    rintro rfl
    cases h _ hc
  have hl : c ≠ '[' := by
    rintro rfl
    cases h _ hc
  simp [hq, hl]

theorem append (h : Reads s qs) (h' : Reads s' qs') : Reads (s ++ s') (qs ++ qs') := by
  intro before rest hb
  obtain ⟨middle, hm, hread⟩ := h before (s'.toList ++ rest) hb
  obtain ⟨last, hl, hread'⟩ := h' middle rest hm
  refine ⟨last, hl, ?_⟩
  rw [String.toList_append, List.append_assoc, hread, hread', Option.map_map]
  simp [Function.comp_def]

theorem append_word (h : Reads s qs) (h' : Reads s' []) : Reads (s ++ s') qs := by
  simpa using h.append h'

theorem between {first last : String} (hf : Reads first []) (h : Reads s qs)
    (hl : Reads last []) : Reads (first ++ s ++ last) qs :=
  (hf.append h).append_word hl

theorem intercalate (hsep : Reads sep []) {f : α → String} {g : α → List Quotation}
    {l : List α} (h : ∀ a ∈ l, Reads (f a) (g a)) :
    Reads (String.intercalate sep (l.map f)) (l.flatMap g) := by
  induction l with
  | nil => exact of_plain rfl
  | cons a l ih =>
    obtain ⟨ha, hl⟩ := List.forall_mem_cons.mp h
    cases l with
    | nil => simpa using ha
    | cons b l =>
      rw [List.map_cons, List.map_cons, String.intercalate_cons_cons, ← List.map_cons,
        List.flatMap_cons]
      have hsome := (ha.append hsep).append (ih hl)
      rwa [List.append_nil] at hsome

end Reads

-- ---------------------------------------------------------------------------
-- Literals
-- ---------------------------------------------------------------------------

theorem reads_quote (s : String) : Reads (Text.quote s) [.text s] := by
  intro before rest hb
  have hbehind : Quotation.behind before s = .text s := by
    rw [Quotation.behind, hb, if_neg Bool.false_ne_true]
  refine ⟨[], rfl, ?_⟩
  rw [Text.quote, String.toList_ofList, quotationsFrom_quote, hbehind]
  rfl

theorem reads_fieldRef (field : String) : Reads (fieldRef field) [.field field] := by
  intro before rest _
  have hcut : (fieldRef field).toList ++ rest =
      "datum[".toList ++ (quoteChars field.toList ++ ']' :: rest) := by
    simp [fieldRef, Text.quote]
  refine ⟨[']'], rfl, ?_⟩
  rw [hcut, quotationsFrom_append (by decide), quotationsFrom_quote, quotationsFrom,
    if_neg (by decide)]
  rfl

theorem reads_repr (n : Nat) : Reads (Nat.repr n) [] :=
  .of_isNumeric fun c hc => Json.isNumeric_of_isDigit
    (Json.isDigit_toDigits n c (by simpa [Nat.repr] using hc))

theorem reads_intText (n : Int) : Reads (intText n) [] := by
  unfold intText
  split
  · exact Reads.append (.of_plain rfl) (reads_repr _)
  · exact reads_repr _

theorem reads_positional (s : Decimal.Scientific) : Reads s.positional [] :=
  .of_isNumeric fun c hc => (Json.fractional_positional s).isNumeric c (by simp [hc])

theorem reads_numberText (x : Float) : Reads (numberText x) [] := by
  have hbody : Reads (if x.isInf then "inf" else (Decimal.shortest .up x).positional) [] := by
    split
    · exact .of_plain rfl
    · exact reads_positional _
  unfold numberText
  split
  · exact .of_plain rfl
  dsimp only
  split
  · exact Reads.append (.of_plain rfl) hbody
  · exact hbody

-- ---------------------------------------------------------------------------
-- Date-times
-- ---------------------------------------------------------------------------

theorem reads_monthText (v : DateTimeValue) : Reads (monthText v) [] := by
  cases v with
  | number n => exact reads_intText _
  | name name => exact reads_repr _

theorem reads_dayText (v : DateTimeValue) : Reads (dayText v) [] := by
  cases v with
  | number n => exact reads_intText _
  | name name => exact reads_repr _

theorem reads_valueText (p : DatePart) (v : DateTimeValue) : Reads (valueText p v) [] := by
  cases p with
  | month => exact reads_monthText v
  | day => exact reads_dayText v
  | _ =>
    cases v with
    | number n => exact reads_intText _
    | name name => exact .of_plain rfl

theorem reads_textOfLiteral (d : DateTime) (p : DatePart) : Reads (textOfLiteral d p) [] := by
  unfold textOfLiteral
  cases d.member? p with
  | none => exact .of_plain rfl
  | some v => exact reads_valueText p v

theorem reads_ofField (field : String) (p : DatePart) :
    Reads (ofField field p) [.field field] := by
  have hbefore : Reads (reader p).1 [] := by
    cases p <;> exact .of_plain rfl
  have hbehind : Reads (reader p).2 [] := by
    cases p <;> exact .of_plain rfl
  exact .between hbefore (reads_fieldRef field) hbehind

theorem reads_default (parts : List DatePart) (place : DatePart) :
    Reads (place.default parts) [] := by
  have hzero : Reads "0" [] := .of_plain rfl
  have hone : Reads "1" [] := .of_plain rfl
  cases place with
  | year =>
    rw [DatePart.default]
    split
    · exact .of_plain rfl
    · exact hzero
  | date => exact hone
  | _ => exact hzero

theorem reads_argument {f : DatePart → List Quotation} (h : ∀ p, Reads (text p) (f p))
    (parts : List DatePart) (place : DatePart) :
    Reads (argument parts text place) ((at? parts place).toList.flatMap f) := by
  unfold argument
  cases at? parts place with
  | none => exact reads_default parts place
  | some p =>
    have harithmetic : Reads p.arithmetic [] := by
      cases p <;> exact .of_plain rfl
    simpa using (h p).append harithmetic

theorem reads_call {f : DatePart → List Quotation} (h : ∀ p, Reads (text p) (f p))
    (parts : List DatePart) :
    Reads ("datetime(" ++ String.intercalate ", " (places.map (argument parts text)) ++ ")")
      ((places.filterMap (at? parts)).flatMap f) := by
  have hcomma : Reads ", " [] := .of_plain rfl
  have harguments := hcomma.intercalate
    fun place (_ : place ∈ places) => reads_argument h parts place
  rw [List.filterMap_eq_flatMap_toList, List.flatMap_assoc]
  exact .between (.of_plain rfl) harguments (.of_plain rfl)

theorem reads_timeUnit (u : TimeUnit) (field : String) :
    Reads (timeUnit u field) ((places.filterMap (at? u.parts)).map fun _ => .field field) := by
  have hcall := reads_call (reads_ofField field) u.parts
  rwa [← timeUnit_eq, ← List.map_eq_flatMap] at hcall

theorem reads_dateTime (d : DateTime) : Reads (dateTime d) [] := by
  have hparts (p : DatePart) :
      (d.member? p).isSome = true ↔ p ∈ DatePart.all.filter fun p => (d.member? p).isSome := by
    cases p <;> simp [DatePart.all]
  have hcall := reads_call (reads_textOfLiteral d) (DatePart.all.filter (d.member? · |>.isSome))
  rwa [← dateTime_eq hparts, List.flatMap_eq_nil_iff.mpr fun _ _ => rfl] at hcall

-- ---------------------------------------------------------------------------
-- Filters
-- ---------------------------------------------------------------------------

/-- The field that is compared: one reference, or with a time unit one at every place of the
date-time where a part of the unit stands. -/
def fieldQuotations (unit : Option TimeUnit) (field : String) : List Quotation :=
  match unit with
  | some u => (places.filterMap (at? u.parts)).map fun _ => .field field
  | none => [.field field]

/-- A text is a literal unless it stands for a date-time. -/
def valueQuotations (unit : Option TimeUnit) : FilterValue → List Quotation
  | .text s => if (asDateTime unit (.text s)).isSome then [] else [.text s]
  | _ => []

def predicateQuotations (p : Predicate) : List Quotation :=
  let field := fieldQuotations p.timeUnit p.field
  let texts := (comparedValues p.comparison).flatMap (valueQuotations p.timeUnit)
  match p.comparison with
  | .oneOf _ => texts ++ field
  | .range none none => []
  | _ => field ++ texts

theorem reads_comparedField (p : Predicate) :
    Reads (comparedField p) (fieldQuotations p.timeUnit p.field) := by
  obtain ⟨field, unit, comparison⟩ := p
  cases unit with
  | some u =>
    exact .between (.of_plain rfl) (reads_timeUnit u field) (.of_plain rfl)
  | none => exact reads_fieldRef field

theorem reads_filterValue (unit : Option TimeUnit) (v : FilterValue) :
    Reads (filterValue unit v) (valueQuotations unit v) := by
  unfold filterValue
  cases hd : asDateTime unit v with
  | some d =>
    have hnone : valueQuotations unit v = [] := by
      cases v <;> simp [valueQuotations, hd]
    rw [hnone]
    exact .between (.of_plain rfl) (reads_dateTime d) (.of_plain rfl)
  | none =>
    cases v with
    | number x => exact reads_numberText x
    | bool b => cases b <;> exact .of_plain rfl
    | text s => simpa [valueQuotations, hd, plainValue] using reads_quote s
    | dateTime d => exact reads_dateTime d

theorem reads_listStart : Reads "indexof([" [] := fun before rest _ =>
  ⟨"indexof([".toList.reverse ++ before, rfl,
    (quotationsFrom_append (by decide) before rest).trans Option.map_id'.symm⟩

theorem reads_comparison (p : Predicate) {op : String} (hop : Reads op []) (v : FilterValue) :
    Reads (comparedField p ++ op ++ filterValue p.timeUnit v)
      (fieldQuotations p.timeUnit p.field ++ [v].flatMap (valueQuotations p.timeUnit)) := by
  rw [List.flatMap_singleton]
  exact ((reads_comparedField p).append_word hop).append (reads_filterValue _ v)

theorem reads_predicate (p : Predicate) : Reads (predicate p) (predicateQuotations p) := by
  obtain ⟨field, unit, comparison⟩ := p
  have hfield := reads_comparedField ⟨field, unit, comparison⟩
  have hvalue := reads_filterValue unit
  cases comparison with
  | equal v => exact reads_comparison _ (.of_plain rfl) v
  | oneOf vs =>
    have hsep : Reads "," [] := .of_plain rfl
    have hvalues := hsep.intercalate fun v (_ : v ∈ vs) => hvalue v
    exact (((reads_listStart.append hvalues).append_word (.of_plain rfl)).append
      hfield).append_word (.of_plain rfl)
  | range low high =>
    have htrue : Reads "true" [] := .of_plain rfl
    have hcomma : Reads ", " [] := .of_plain rfl
    cases low with
    | none =>
      cases high with
      | none => exact htrue
      | some high => exact reads_comparison _ (.of_plain rfl) high
    | some low =>
      cases high with
      | none => exact reads_comparison _ (.of_plain rfl) low
      | some high =>
        show Reads _ (fieldQuotations unit field ++ [low, high].flatMap (valueQuotations unit))
        rw [List.flatMap_cons, List.flatMap_singleton, ← List.append_assoc]
        have hstart : Reads "inrange(" [] := .of_plain rfl
        have hlow := ((hstart.append hfield).append_word hcomma).append (hvalue low)
        exact ((hlow.append_word hcomma).append (hvalue high)).append_word (.of_plain rfl)

theorem reads_filterDef (ps : List Predicate) :
    Reads (filterDef (.many (ps.map .predicate))) (ps.flatMap predicateQuotations) := by
  rw [filterDef, List.map_map]
  refine Reads.intercalate (.of_plain rfl) fun p _ => ?_
  exact .between (.of_plain rfl) (reads_predicate p) (.of_plain rfl)

theorem reads_hasValue (field : String) :
    Reads (NullFilter.hasValue field) [.field field, .field field] := by
  have hand : Reads " !== null && !isNaN(" [] := .of_plain rfl
  have hfield := reads_fieldRef field
  exact ((hfield.append hand).append hfield).append (.of_plain rfl)

theorem reads_isPositive (field : String) :
    Reads (PositiveFilter.isPositive field) [.field field] :=
  (reads_fieldRef field).append (.of_plain rfl)

-- ---------------------------------------------------------------------------
-- Transforms
-- ---------------------------------------------------------------------------

def transformQuotations? : Transform → Option (List Quotation)
  | .filter expr | .formula expr _ => quotations expr
  | _ => none

/-- Whatever the names and the texts are, reading an expression gives them back in their order. -/
theorem quotations_exact :
    (∀ p : Predicate, quotations (predicate p) = some (predicateQuotations p)) ∧
    (∀ ps : List Predicate, quotations (filterDef (.many (ps.map .predicate))) =
      some (ps.flatMap predicateQuotations)) ∧
    (∀ fields, (NullFilter.transforms fields).map transformQuotations? =
      if fields.isEmpty then [] else [some (fields.flatMap fun f => [.field f, .field f])]) ∧
    (∀ f, (PositiveFilter.transforms f).map transformQuotations? =
      (f.filter Prod.snd).map fun e => some [.field e.1]) ∧
    ∀ u, (TimeUnits.transforms u).map transformQuotations? =
      u.map fun e => some (fieldQuotations (some e.2.1) e.2.2) := by
  refine ⟨fun p => (reads_predicate p).quotations_eq, fun ps => (reads_filterDef ps).quotations_eq,
    fun fields => ?_, fun f => ?_, fun u => ?_⟩
  · unfold NullFilter.transforms
    split
    · rfl
    · exact congrArg (fun q => [q]) (Reads.intercalate (.of_plain rfl)
        fun f _ => reads_hasValue f).quotations_eq
  · rw [PositiveFilter.transforms, List.map_map]
    exact List.map_congr_left fun e _ => (reads_isPositive e.1).quotations_eq
  · rw [TimeUnits.transforms, List.map_map]
    exact List.map_congr_left fun e _ => (reads_timeUnit e.2.1 e.2.2).quotations_eq

-- Without its escape the quote in a name would end the literal.
example : quotations "datum[\"a\"b\"]" = none := by cbv

end Expression

end ChartPipeline
