import ChartPipeline.Expression.Literal
import ChartPipeline.Proofs.Json.Literal

/-!
# Quoted texts are decoded anywhere

A literal spells each character of a text as it is, by a short escape, or by its units of sixteen
bits, and the reader takes exactly such literals (`Json.literal?_eq_some_iff`). So a quoted text can
be decoded from the start of any text, and different texts are quoted differently
(`Text.quote_decodable`).
-/

namespace ChartPipeline

namespace Json

open Piece (Written)

variable {s t rest : List Char} {text : String} {c : Char} {n high low : Nat} {p : Piece}
  {parts : List (List Char)} {pieces : List Piece} {cs : List Char}

-- ---------------------------------------------------------------------------
-- Spellings
-- ---------------------------------------------------------------------------

/-- How a character is spelled in a literal. As a unit it is no half of a pair, and what takes more
than sixteen bits is a pair of units. -/
inductive Spells : List Char → Char → Prop
  | char {s : List Char} {c : Char} (h : Written s (.char c)) : Spells s c
  | unit {s : List Char} {c : Char} (h : Written s (.unit c.toNat)) : Spells s c
  | pair {s t : List Char} {c : Char} (hc : 0x10000 ≤ c.toNat)
      (hs : Written s (.unit (0xD800 + (c.toNat - 0x10000) / 0x400)))
      (ht : Written t (.unit (0xDC00 + (c.toNat - 0x10000) % 0x400))) : Spells (s ++ t) c

def Spelled (body text : List Char) : Prop :=
  ∃ parts, List.Forall₂ Spells parts text ∧ parts.flatten = body

theorem Spelled.nil : Spelled [] [] := ⟨[], .nil, rfl⟩

theorem Spelled.cons (h : Spells s c) (ht : Spelled t cs) : Spelled (s ++ t) (c :: cs) := by
  obtain ⟨parts, hparts, rfl⟩ := ht
  exact ⟨s :: parts, .cons h hparts, rfl⟩

-- ---------------------------------------------------------------------------
-- Pieces
-- ---------------------------------------------------------------------------

theorem scan_flatten (h : List.Forall₂ Written parts pieces) (rest : List Char) :
    scan (parts.flatten ++ '"' :: rest) = ⟨pieces, none, rest⟩ := by
  induction h with
  | nil => simp [scan]
  | cons hp _ ih =>
    rw [List.flatten_cons, List.append_assoc, scan_of_written hp, ih]
    rfl

def Closed (s : List Char) (found : Scan) : Prop :=
  ∃ parts, List.Forall₂ Written parts found.pieces ∧ s = parts.flatten ++ '"' :: found.rest

theorem Closed.cons {found : Scan} (hp : Written s p) (h : Closed t found) :
    Closed (s ++ t) (found.cons p) := by
  obtain ⟨parts, hparts, rfl⟩ := h
  exact ⟨s :: parts, .cons hp hparts, by simp [Scan.cons]⟩

theorem closed_of_ending (h : (scan s).ending = none) : Closed s (scan s) := by
  fun_induction scan s with
  | case2 rest => exact ⟨[], .nil, rfl⟩
  | case4 a b c d rest n hn ih => exact (ih h).cons (.unit (.digits hn))
  | case7 e rest _ _ c hc ih => exact (ih h).cons (.short hc)
  | case10 c rest hq hlast _ _ hescape hc ih =>
    have hb : c ≠ '\\' := by
      cases rest with
      | nil => exact fun he => hlast he rfl
      | cons d rest => exact fun he => hescape d rest he rfl
    exact (ih h).cons (.plain (Nat.le_of_not_lt hc) hq hb)
  | _ => cases h

-- ---------------------------------------------------------------------------
-- Units
-- ---------------------------------------------------------------------------

theorem of_hexValue (h : hexValue c = some n) : n < 16 ∧ 32 ≤ c.toNat := by
  unfold hexValue at h
  simp only [Char.le_def, UInt32.le_iff_toNat_le, Char.toNat_val, Char.reduceToNat] at h
  grind

theorem of_hex {u : List Char} (h : Hex u n) : n < 0x10000 ∧ ∀ c ∈ u, 32 ≤ c.toNat := by
  obtain ⟨h⟩ := h
  simp only [hexUnit, bind, Option.bind_eq_some_iff] at h
  obtain ⟨a, ha, b, hb, c, hc, d, hd, h⟩ := h
  obtain ⟨ha, hca⟩ := of_hexValue ha
  obtain ⟨hb, hcb⟩ := of_hexValue hb
  obtain ⟨hc, hcc⟩ := of_hexValue hc
  obtain ⟨hd, hcd⟩ := of_hexValue hd
  cases h
  exact ⟨by omega, by simp [hca, hcb, hcc, hcd]⟩

theorem le_toNat_of_unescape {e : Char} (h : unescape e = some c) : 32 ≤ e.toNat := by
  unfold unescape at h
  split at h <;> first | decide | cases h

theorem toNat_cases (c : Char) : c.toNat < 0xD800 ∨ 0xDFFF < c.toNat ∧ c.toNat < 0x110000 :=
  c.valid

theorem toNat_ofNat (h : n.isValidChar) : (Char.ofNat n).toNat = n := by
  rw [Char.ofNat, dif_pos h]
  rfl

theorem spells_of_unit (h : Written s (.unit n)) (hn : n < 0xD800 ∨ 0xDFFF < n) :
    Spells s (Char.ofNat n) := by
  obtain - | - | hex := h
  have hlt := (of_hex hex).1
  have hvalid : n.isValidChar := hn.imp_right fun hn => ⟨hn, by omega⟩
  refine .unit ?_
  rw [toNat_ofNat hvalid]
  exact .unit hex

theorem spells_of_pair (hs : Written s (.unit high)) (ht : Written t (.unit low))
    (hhigh : 0xD800 ≤ high ∧ high < 0xDC00) (hlow : 0xDC00 ≤ low ∧ low ≤ 0xDFFF) :
    Spells (s ++ t) (Char.ofNat (0x10000 + (high - 0xD800) * 0x400 + (low - 0xDC00))) := by
  have hc := toNat_ofNat (n := 0x10000 + (high - 0xD800) * 0x400 + (low - 0xDC00))
    (.inr ⟨by omega, by omega⟩)
  refine .pair (by omega) ?_ ?_
  · rw [hc]
    convert hs using 2
    omega
  · rw [hc]
    convert ht using 2
    omega

/-- Pieces that can be joined spell the characters that come of it. -/
theorem spelled_of_joinPieces (hparts : List.Forall₂ Written parts pieces)
    (h : joinPieces true pieces = some cs) : Spelled parts.flatten cs := by
  fun_induction joinPieces true pieces generalizing parts cs with
  | case1 =>
    cases hparts
    cases h
    exact .nil
  | case2 c rest ih =>
    obtain - | ⟨hp, hparts⟩ := hparts
    obtain ⟨t, ht, rfl⟩ := Option.map_eq_some_iff.mp h
    exact (ih hparts ht).cons (.char hp)
  | case3 n hn =>
    obtain - | ⟨hp, hparts⟩ := hparts
    cases hparts
    cases h
    exact Spelled.nil.cons (spells_of_unit hp (by simpa using hn))
  | case6 n c rest hn ih =>
    obtain - | ⟨hp, - | ⟨hp', hparts⟩⟩ := hparts
    obtain ⟨t, ht, rfl⟩ := Option.map_eq_some_iff.mp h
    exact ((ih hparts ht).cons (.char hp')).cons (spells_of_unit hp (by simpa using hn))
  | case8 n m rest hn ih =>
    obtain - | ⟨hp, hparts⟩ := hparts
    obtain ⟨t, ht, rfl⟩ := Option.map_eq_some_iff.mp h
    exact (ih hparts ht).cons (spells_of_unit hp (by simpa using hn))
  | case9 high low rest hhigh hlow ih =>
    obtain - | ⟨hp, - | ⟨hp', hparts⟩⟩ := hparts
    obtain ⟨t, ht, rfl⟩ := Option.map_eq_some_iff.mp h
    simp only [Bool.or_eq_true, Bool.and_eq_true, decide_eq_true_eq, not_or, Nat.not_lt]
      at hhigh hlow
    have hpair := spells_of_pair hp hp' ⟨hhigh.1, hlow.1.1⟩ ⟨hlow.1.2, hlow.2⟩
    simpa using (ih hparts ht).cons hpair
  | _ => simp_all

theorem joinPieces_cons_pair (hhigh : 0xD800 ≤ high ∧ high < 0xDC00)
    (hlow : 0xDC00 ≤ low ∧ low ≤ 0xDFFF) (pieces : List Piece) :
    joinPieces true (.unit high :: .unit low :: pieces) =
      (Char.ofNat (0x10000 + (high - 0xD800) * 0x400 + (low - 0xDC00)) :: ·) <$>
        joinPieces true pieces := by
  have hnot : ¬ (high < 0xD800 ∨ 0xDFFF < high) := by omega
  simp [joinPieces, hnot, hhigh.2, hlow]

theorem Spells.exists_written (h : Spells s c) : ∃ parts pieces,
    List.Forall₂ Written parts pieces ∧ parts.flatten = s ∧
      ∀ more, joinPieces true (pieces ++ more) = (c :: ·) <$> joinPieces true more := by
  cases h with
  | char h => exact ⟨[_], [_], .cons h .nil, List.flatten_singleton, fun _ => rfl⟩
  | unit h =>
    refine ⟨[_], [_], .cons h .nil, List.flatten_singleton, fun more => ?_⟩
    rw [List.singleton_append, joinPieces_cons_unit ((toNat_cases c).imp_right And.left),
      Char.ofNat_toNat]
  | pair hc hs ht =>
    have hvalid := toNat_cases c
    have hjoined : 0x10000 + (0xD800 + (c.toNat - 0x10000) / 0x400 - 0xD800) * 0x400 +
        (0xDC00 + (c.toNat - 0x10000) % 0x400 - 0xDC00) = c.toNat := by omega
    refine ⟨[_, _], [_, _], .cons hs (.cons ht .nil), by simp, fun more => ?_⟩
    rw [List.cons_append, List.singleton_append, joinPieces_cons_pair (by omega) (by omega),
      hjoined, Char.ofNat_toNat]

theorem exists_pieces (h : List.Forall₂ Spells parts cs) : ∃ written pieces,
    List.Forall₂ Written written pieces ∧ written.flatten = parts.flatten ∧
      joinPieces true pieces = some cs := by
  induction h with
  | nil => exact ⟨[], [], .nil, rfl, rfl⟩
  | cons hs _ ih =>
    obtain ⟨written, pieces, hwritten, hflat, hjoin⟩ := ih
    obtain ⟨first, firstPieces, hfirst, rfl, hjoinFirst⟩ := hs.exists_written
    refine ⟨first ++ written, firstPieces ++ pieces, ?_, by simp [hflat], ?_⟩
    · exact List.rel_append hfirst hwritten
    · rw [hjoinFirst, hjoin]
      rfl

-- ---------------------------------------------------------------------------
-- No control characters
-- ---------------------------------------------------------------------------

theorem Piece.Written.le_toNat (h : Written s p) (hc : c ∈ s) : 32 ≤ c.toNat := by
  cases h with
  | plain hplain => rwa [List.mem_singleton.mp hc]
  | short h =>
    obtain rfl | rfl := List.mem_pair.mp hc
    · decide
    · exact le_toNat_of_unescape h
  | unit h =>
    obtain rfl | hc := List.mem_cons.mp hc
    · decide
    obtain rfl | hc := List.mem_cons.mp hc
    · decide
    · exact (of_hex h).2 c hc

theorem Spells.le_toNat {x : Char} (h : Spells s x) (hc : c ∈ s) : 32 ≤ c.toNat := by
  cases h with
  | char h | unit h => exact h.le_toNat hc
  | pair _ hs ht => exact (List.mem_append.mp hc).elim hs.le_toNat ht.le_toNat

theorem Spelled.le_toNat (h : Spelled s cs) (hc : c ∈ s) : 32 ≤ c.toNat := by
  obtain ⟨parts, hparts, rfl⟩ := h
  induction hparts with
  | nil => cases hc
  | cons hs _ ih => exact (List.mem_append.mp hc).elim hs.le_toNat ih

-- ---------------------------------------------------------------------------
-- The reader
-- ---------------------------------------------------------------------------

/-- The reader takes a literal from the start of a text if and only if one is there. -/
theorem literal?_eq_some_iff : literal? s = some (text, rest) ↔
    ∃ body, Spelled body text.toList ∧ s = '"' :: body ++ '"' :: rest := by
  constructor
  · intro h
    unfold literal? at h
    split at h
    · rename_i behind
      split at h
      · cases h
      · rename_i hending
        obtain ⟨cs, hcs, he⟩ := Option.map_eq_some_iff.mp h
        cases he
        have hclosed := closed_of_ending (Option.not_isSome_iff_eq_none.mp hending)
        obtain ⟨parts, hparts, hbehind⟩ := hclosed
        refine ⟨parts.flatten, ?_, congrArg ('"' :: ·) hbehind⟩
        rw [String.toList_ofList]
        exact spelled_of_joinPieces hparts hcs
    · cases h
  · rintro ⟨_, ⟨parts, hparts, rfl⟩, rfl⟩
    obtain ⟨written, pieces, hwritten, hflat, hjoin⟩ := exists_pieces hparts
    rw [List.cons_append, literal?, ← hflat, scan_flatten hwritten]
    simp [hjoin]

end Json

-- ---------------------------------------------------------------------------
-- Quoting
-- ---------------------------------------------------------------------------

variable {field other : String} {c : Char}

theorem Expression.fieldRef_injective (h : fieldRef field = fieldRef other) : field = other := by
  have hchars := congrArg String.toList h
  simp only [fieldRef, Text.quote, String.toList_append, String.toList_ofList, List.append_assoc,
    List.append_cancel_left_eq] at hchars
  exact (Json.quoteChars_append_inj hchars).1

namespace Text

theorem literal?_quote (text rest : String) :
    Json.literal? (quote text ++ rest).toList = some (text, rest.toList) := by
  rw [quote, String.toList_append, String.toList_ofList, Json.literal?_quoteChars]

theorem quote_injective : Function.Injective quote := by
  intro text other h
  have hread := literal?_quote text ""
  rw [h, literal?_quote] at hread
  exact (Prod.mk.inj (Option.some.inj hread)).1.symm

theorem le_toNat_of_mem_quote {text : String} (h : c ∈ (quote text).toList) : 32 ≤ c.toNat := by
  obtain ⟨body, hbody, he⟩ := Json.literal?_eq_some_iff.mp (literal?_quote text "")
  rw [String.append_empty] at he
  rw [he, String.toList_empty, List.cons_append, List.mem_cons, List.mem_append,
    List.mem_singleton] at h
  obtain rfl | h | rfl := h
  · decide
  · exact hbody.le_toNat h
  · decide

/-- Whatever follows a quoted text, reading a literal takes exactly the quoted text and gives the
text. A literal is any spelling of a text between quotes, and the quoted text has no control
character. So texts and fields can be told from what is written for them. -/
theorem quote_decodable :
    (∀ text rest : String, Json.literal? (quote text ++ rest).toList = some (text, rest.toList)) ∧
      (∀ s text rest, Json.literal? s = some (text, rest) ↔
        ∃ body, Json.Spelled body text.toList ∧ s = '"' :: body ++ '"' :: rest) ∧
      (∀ text, ∀ c ∈ (quote text).toList, 32 ≤ c.toNat) ∧
      Function.Injective quote ∧ Function.Injective Expression.fieldRef :=
  ⟨literal?_quote, fun _ _ _ => Json.literal?_eq_some_iff, fun _ _ => le_toNat_of_mem_quote,
    quote_injective, fun _ _ => Expression.fieldRef_injective⟩

-- The two halves of a pair are read as one character, and what follows the literal is left.
example : Json.literal? "\"\\ud83d\\ude00\" rest".toList = some ("😀", " rest".toList) := by
  cbv

end Text

end ChartPipeline
