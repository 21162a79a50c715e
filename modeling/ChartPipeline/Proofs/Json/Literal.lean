import ChartPipeline.Json.Literal
import ChartPipeline.Text.Quoted
import Mathlib.Data.List.Forall2

/-!
# Literals are read back

Whatever follows the literal of a text, reading it takes exactly the literal and gives the text
(`literal?_quoteChars`). So texts can be told by their literals (`quoteChars_append_inj`).
-/

namespace ChartPipeline.Json

open ChartPipeline.Text (escape escapeAll quoteChars hexDigit)

variable {s rest rest' : List Char} {p : Piece} {pieces : List Piece} {n : Nat}

/-- The text of a literal at the start of a text, and what follows its closing quote. -/
def literal? : List Char → Option (String × List Char)
  | '"' :: rest =>
    if (scan rest).ending.isSome then none
    else (joinPieces true (scan rest).pieces).map fun text =>
      (String.ofList text, (scan rest).rest)
  | _ => none

theorem length_lt_of_literal? {text : String} (h : literal? s = some (text, rest)) :
    rest.length < s.length := by
  unfold literal? at h
  split at h
  · rename_i behind
    split at h
    · cases h
    · obtain ⟨_, -, he⟩ := Option.map_eq_some_iff.mp h
      obtain ⟨-, rfl⟩ := Prod.mk.inj he
      exact Nat.lt_succ_of_le (length_rest_scan_le behind)
  · cases h

-- ---------------------------------------------------------------------------
-- Pieces
-- ---------------------------------------------------------------------------

/-- A piece that stands for a character. A unit must not be half of a pair. -/
inductive Piece.Means : Piece → Char → Prop
  | char (c : Char) : Means (.char c) c
  | unit {c : Char} (h : c.toNat < 0xD800) : Means (.unit c.toNat) c

theorem joinPieces_cons_unit (hn : n < 0xD800 ∨ 0xDFFF < n) (pieces : List Piece) :
    joinPieces true (.unit n :: pieces) = (Char.ofNat n :: ·) <$> joinPieces true pieces := by
  have hplain : (decide (n < 0xD800) || decide (0xDFFF < n)) = true := by simpa using hn
  cases pieces with
  | nil => simp [joinPieces, hn]
  | cons p pieces =>
    cases p with
    | char c =>
      rw [joinPieces, joinPieces, if_pos hplain, Option.map_eq_map, Option.map_eq_map,
        Option.map_eq_map, Option.map_map]
      rfl
    | unit m => rw [joinPieces, if_pos hplain]

theorem joinPieces_of_means (h : List.Forall₂ Piece.Means pieces s) :
    joinPieces true pieces = some s := by
  induction h with
  | nil => rfl
  | cons hp _ ih =>
    cases hp with
    | char c => rw [joinPieces, ih, Option.map_eq_map, Option.map_some]
    | unit hc =>
      rw [joinPieces_cons_unit (.inl hc), ih, Char.ofNat_toNat, Option.map_eq_map, Option.map_some]

inductive Hex : List Char → Nat → Prop
  | digits {a b c d : Char} {n : Nat} (h : hexUnit a b c d = some n) : Hex [a, b, c, d] n

/-- How a piece is written in a literal: as it is, by a short escape, or as a unit. -/
inductive Piece.Written : List Char → Piece → Prop
  | plain {c : Char} (hc : 32 ≤ c.toNat) (hq : c ≠ '"') (hb : c ≠ '\\') : Written [c] (.char c)
  | short {e c : Char} (h : unescape e = some c) : Written ['\\', e] (.char c)
  | unit {u : List Char} {n : Nat} (h : Hex u n) : Written ('\\' :: 'u' :: u) (.unit n)

open Piece (Written)

theorem scan_of_written (h : Written s p) (rest : List Char) :
    scan (s ++ rest) = (scan rest).cons p := by
  cases h with
  | plain hc hq hb =>
    rw [List.singleton_append, scan.eq_def]
    split <;> simp_all [Nat.not_lt_of_le]
  | short h =>
    unfold unescape at h
    split at h <;> cases h <;> simp [scan, unescape]
  | unit h =>
    obtain ⟨h⟩ := h
    simp [scan, h]

-- ---------------------------------------------------------------------------
-- Escapes
-- ---------------------------------------------------------------------------

theorem hexUnit_hexDigit :
    ∀ n < 32, hexUnit '0' '0' (hexDigit (n / 16)) (hexDigit (n % 16)) = some n := by
  decide

/-- Whatever its escape is, a character is read back. -/
theorem exists_scan_escape (c : Char) (rest : List Char) :
    ∃ p : Piece, p.Means c ∧ scan (escape c ++ rest) = (scan rest).cons p := by
  have hshort {e c : Char} (h : unescape e = some c) :
      ∃ p : Piece, p.Means c ∧ scan ('\\' :: e :: rest) = (scan rest).cons p :=
    ⟨_, .char c, scan_of_written (.short h) rest⟩
  unfold escape
  iterate 7
    split
    · subst_vars
      exact hshort rfl
  split
  · rename_i hlt
    exact ⟨_, .unit (by omega), scan_of_written (.unit (.digits (hexUnit_hexDigit _ hlt))) rest⟩
  · exact ⟨_, .char c, scan_of_written (.plain (Nat.le_of_not_lt ‹_›) ‹_› ‹_›) rest⟩

theorem exists_scan_escapeAll (s rest : List Char) :
    ∃ pieces, List.Forall₂ Piece.Means pieces s ∧
      scan (escapeAll s ++ '"' :: rest) = ⟨pieces, none, rest⟩ := by
  induction s with
  | nil => exact ⟨[], .nil, by simp [escapeAll, scan]⟩
  | cons c s ih =>
    obtain ⟨pieces, hpieces, hscan⟩ := ih
    obtain ⟨p, hp, hfirst⟩ := exists_scan_escape c (escapeAll s ++ '"' :: rest)
    have hcut : escapeAll (c :: s) ++ '"' :: rest = escape c ++ (escapeAll s ++ '"' :: rest) := by
      simp [escapeAll]
    rw [hcut, hfirst, hscan]
    exact ⟨p :: pieces, .cons hp hpieces, rfl⟩

theorem literal?_quoteChars (s : String) (rest : List Char) :
    literal? (quoteChars s.toList ++ rest) = some (s, rest) := by
  obtain ⟨pieces, hpieces, hscan⟩ := exists_scan_escapeAll s.toList rest
  have hcut : quoteChars s.toList ++ rest = '"' :: (escapeAll s.toList ++ '"' :: rest) := by
    simp [quoteChars]
  rw [hcut, literal?, hscan]
  simp [joinPieces_of_means hpieces]

theorem quoteChars_append_inj {s t : String}
    (h : quoteChars s.toList ++ rest = quoteChars t.toList ++ rest') : s = t ∧ rest = rest' := by
  have hread := congrArg literal? h
  simpa only [literal?_quoteChars, Option.some.injEq, Prod.mk.injEq] using hread

end ChartPipeline.Json
