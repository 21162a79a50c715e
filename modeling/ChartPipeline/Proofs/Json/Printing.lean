import ChartPipeline.Json.Printer
import ChartPipeline.Proofs.Json.Literal
import ChartPipeline.Proofs.Json.Number

/-!
# Values can be told by their compact texts

A literal is read back up to its closing quote (`literal?_quoteChars`), the first character of a text
tells what kind of value it is of (`kindOf_head`), and no text of a value goes on into what may
follow it. So values with the same text are the same (`compact_injective`).
-/

namespace ChartPipeline.Json

open ChartPipeline.Text (quoteChars)

variable {text text' rest rest' : List Char} {c : Char} {v w : Json}

-- ---------------------------------------------------------------------------
-- Kinds of values
-- ---------------------------------------------------------------------------

def kind : Json → Nat
  | .null => 0
  | .bool true => 1
  | .bool false => 2
  | .string _ => 3
  | .array _ => 4
  | .object _ => 5
  | .number _ => 6

def kindOf (c : Char) : Nat :=
  if c = 'n' then 0
  else if c = 't' then 1
  else if c = 'f' then 2
  else if c = '"' then 3
  else if c = '[' then 4
  else if c = '\x7b' then 5
  else if isNumeric c then 6
  else 7

theorem kindOf_of_isNumeric (h : isNumeric c = true) : kindOf c = 6 := by
  have hne {d : Char} (hd : isNumeric d = false) : c ≠ d := by
    rintro rfl
    rw [h] at hd
    cases hd
  rw [kindOf, if_neg (hne rfl), if_neg (hne rfl), if_neg (hne rfl), if_neg (hne rfl),
    if_neg (hne rfl), if_neg (hne rfl), if_pos h]

theorem kindOf_head (v : Json) : ∃ c rest, v.compactChars = c :: rest ∧ kindOf c = kind v := by
  cases v with
  | null => exact ⟨_, _, rfl, rfl⟩
  | bool b => cases b <;> exact ⟨_, _, rfl, rfl⟩
  | string s => exact ⟨_, _, rfl, rfl⟩
  | array items => exact ⟨_, _, rfl, rfl⟩
  | object members => exact ⟨_, _, rfl, rfl⟩
  | number n =>
    obtain ⟨c, rest, htext, hc⟩ := text_head n
    exact ⟨c, rest, htext, kindOf_of_isNumeric hc⟩

theorem kind_eq (h : v.compactChars ++ rest = w.compactChars ++ rest') : kind v = kind w := by
  obtain ⟨c, more, hv, hc⟩ := kindOf_head v
  obtain ⟨c', more', hw, hc'⟩ := kindOf_head w
  rw [hv, hw, List.cons_append, List.cons_append] at h
  rw [← hc, ← hc', (List.cons.inj h).1]

theorem not_head (hc : kindOf c = 7) : c :: rest ≠ v.compactChars ++ rest' := by
  intro h
  obtain ⟨c', more, hv, hc'⟩ := kindOf_head v
  rw [hv, List.cons_append] at h
  rw [(List.cons.inj h).1, hc'] at hc
  cases v with
  | bool b => cases b <;> cases hc
  | _ => cases hc

-- ---------------------------------------------------------------------------
-- Values
-- ---------------------------------------------------------------------------

theorem text_append_inj {n k : Number} (hr : Stops isNumeric rest) (hr' : Stops isNumeric rest')
    (h : n.text.toList ++ rest = k.text.toList ++ rest') : n = k ∧ rest = rest' := by
  obtain ⟨hn, hrest⟩ := span_append (isNumeric_text n) hr
  obtain ⟨hk, hrest'⟩ := span_append (isNumeric_text k) hr'
  refine ⟨text_injective (String.toList_injective ?_), ?_⟩
  · rw [← hn, ← hk, h]
  · rw [← hrest, ← hrest', h]

theorem stops_cons (h : isNumeric c = false) : Stops isNumeric (c :: rest) := by
  intro d hd
  cases hd
  exact h

theorem stops_more {done : Bool} (h : isNumeric c = false) :
    Stops isNumeric ((if done then [] else ',' :: text) ++ c :: rest) := by
  cases done
  · exact stops_cons rfl
  · exact stops_cons h

/-- Whether there is more can be told, so what it is can be told too. -/
theorem more_append_inj {α : Type} {vs ws : List α} {texts : List α → List Char} (hc : c ≠ ',')
    (hinj : ∀ rest rest', texts vs ++ c :: rest = texts ws ++ c :: rest' → vs = ws ∧ rest = rest')
    (h : (if vs.isEmpty then [] else ',' :: texts vs) ++ c :: rest =
      (if ws.isEmpty then [] else ',' :: texts ws) ++ c :: rest') : vs = ws ∧ rest = rest' := by
  cases vs with
  | nil =>
    cases ws with
    | nil => exact ⟨rfl, (List.cons.inj h).2⟩
    | cons w ws => exact absurd (List.cons.inj h).1 hc
  | cons v vs =>
    cases ws with
    | nil => exact absurd (List.cons.inj h).1.symm hc
    | cons w ws => exact hinj rest rest' (List.cons.inj h).2

mutual
theorem compactChars_append_inj : ∀ (v w : Json) {rest rest' : List Char}, Stops isNumeric rest →
    Stops isNumeric rest' → v.compactChars ++ rest = w.compactChars ++ rest' → v = w ∧ rest = rest'
  | .null, w, rest, rest', hr, hr', h => by
    cases w with
    | null => exact ⟨rfl, by simpa [compactChars] using h⟩
    | bool b => cases b <;> cases kind_eq h
    | _ => cases kind_eq h
  | .bool true, w, rest, rest', hr, hr', h => by
    cases w with
    | bool b =>
      cases b
      · cases kind_eq h
      · exact ⟨rfl, by simpa [compactChars] using h⟩
    | _ => cases kind_eq h
  | .bool false, w, rest, rest', hr, hr', h => by
    cases w with
    | bool b =>
      cases b
      · exact ⟨rfl, by simpa [compactChars] using h⟩
      · cases kind_eq h
    | _ => cases kind_eq h
  | .number n, w, rest, rest', hr, hr', h => by
    cases w with
    | number k =>
      obtain ⟨rfl, hrest⟩ := text_append_inj hr hr' h
      exact ⟨rfl, hrest⟩
    | bool b => cases b <;> cases kind_eq h
    | _ => cases kind_eq h
  | .string s, w, rest, rest', hr, hr', h => by
    cases w with
    | string t =>
      obtain ⟨rfl, hrest⟩ := quoteChars_append_inj h
      exact ⟨rfl, hrest⟩
    | bool b => cases b <;> cases kind_eq h
    | _ => cases kind_eq h
  | .array items, w, rest, rest', hr, hr', h => by
    cases w with
    | array items' =>
      have h : compactItems items ++ ']' :: rest = compactItems items' ++ ']' :: rest' := by
        simpa [compactChars] using h
      obtain ⟨rfl, hrest⟩ := compactItems_append_inj items items' h
      exact ⟨rfl, hrest⟩
    | bool b => cases b <;> cases kind_eq h
    | _ => cases kind_eq h
  | .object members, w, rest, rest', hr, hr', h => by
    cases w with
    | object members' =>
      have h : compactMembers members ++ '\x7d' :: rest = compactMembers members' ++ '\x7d' :: rest' := by
        simpa [compactChars] using h
      obtain ⟨rfl, hrest⟩ := compactMembers_append_inj members members' h
      exact ⟨rfl, hrest⟩
    | bool b => cases b <;> cases kind_eq h
    | _ => cases kind_eq h
theorem compactItems_append_inj : ∀ (vs ws : List Json) {rest rest' : List Char},
    compactItems vs ++ ']' :: rest = compactItems ws ++ ']' :: rest' → vs = ws ∧ rest = rest'
  | [], [], rest, rest', h => ⟨rfl, (List.cons.inj h).2⟩
  | [], w :: ws, rest, rest', h => by
    rw [compactItems, compactItems, List.append_assoc] at h
    exact absurd h (not_head rfl)
  | v :: vs, [], rest, rest', h => by
    rw [compactItems, compactItems, List.append_assoc] at h
    exact absurd h.symm (not_head rfl)
  | v :: vs, w :: ws, rest, rest', h => by
    rw [compactItems, compactItems, List.append_assoc, List.append_assoc] at h
    obtain ⟨rfl, hmore⟩ := compactChars_append_inj v w (stops_more rfl) (stops_more rfl) h
    obtain ⟨rfl, hrest⟩ :=
      more_append_inj (by decide) (fun _ _ => compactItems_append_inj vs ws) hmore
    exact ⟨rfl, hrest⟩
theorem compactMembers_append_inj : ∀ (ms ns : List (String × Json)) {rest rest' : List Char},
    compactMembers ms ++ '\x7d' :: rest = compactMembers ns ++ '\x7d' :: rest' →
      ms = ns ∧ rest = rest'
  | [], [], rest, rest', h => ⟨rfl, (List.cons.inj h).2⟩
  | [], (key, v) :: ns, rest, rest', h => by simp [compactMembers, quoteChars] at h
  | (key, v) :: ms, [], rest, rest', h => by simp [compactMembers, quoteChars] at h
  | (key, v) :: ms, (key', w) :: ns, rest, rest', h => by
    simp only [compactMembers, List.append_assoc, List.cons_append] at h
    obtain ⟨rfl, hvalue⟩ := quoteChars_append_inj h
    obtain ⟨rfl, hmore⟩ :=
      compactChars_append_inj v w (stops_more rfl) (stops_more rfl) (List.cons.inj hvalue).2
    obtain ⟨rfl, hrest⟩ :=
      more_append_inj (by decide) (fun _ _ => compactMembers_append_inj ms ns) hmore
    exact ⟨rfl, hrest⟩
end

theorem compact_injective (h : v.compact = w.compact) : v = w := by
  have hchars : v.compactChars ++ [] = w.compactChars ++ [] := by
    rw [List.append_nil, List.append_nil]
    exact String.ofList_injective h
  exact (compactChars_append_inj v w (by simp [Stops]) (by simp [Stops]) hchars).1

end ChartPipeline.Json
