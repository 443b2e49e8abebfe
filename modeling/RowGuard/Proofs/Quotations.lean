import RowGuard.Proofs.Segmentations
import RowGuard.Text.Quoted

/-!
# String literals are faithful

The strings that scanning cuts off are exactly the literals that texts are written as: a body
in which each quote stands twice is the doubled form of one text, and of one only.  Writing a
text and reading it from the literal are therefore inverse to each other on both sides, and
a literal that stands alone is a single token.
-/

namespace RowGuard.Query

open Scan
open Text.Quoted (double halve inner encode decode encodeChars decodeChars)

/-! ## Literals and their texts -/

theorem isQuotable_double (cs : List Char) : IsQuotable (double cs) := by
  induction cs with
  | nil => exact .nil
  | cons c cs ih =>
      by_cases hc : c = '\''
      · rw [double, if_pos hc]
        exact .quote ih
      · rw [double, if_neg hc]
        exact .other hc ih

theorem halve_cons_of_ne {c : Char} (hc : c ≠ '\'') (cs : List Char) :
    halve (c :: cs) = c :: halve cs := by
  cases cs with
  | nil => rfl
  | cons d cs => rw [halve, if_neg fun h => hc h.1]

/-- A body with doubled quotes is what its text is written as. -/
theorem double_halve {body : List Char} (h : IsQuotable body) : double (halve body) = body := by
  induction h with
  | nil => rfl
  | quote _ ih => rw [halve, if_pos ⟨rfl, rfl⟩, double, if_pos rfl, ih]
  | other hc _ ih => rw [halve_cons_of_ne hc, double, if_neg hc, ih]

theorem decode_encode (s : String) : decode (encode s) = s := by
  rw [decode, encode, String.toList_ofList, decodeChars, Text.Quoted.inner_encodeChars,
    Text.Quoted.halve_double, String.ofList_toList]

/-- The pieces that denote strings are the literals. -/
theorem denotes_string_iff {piece : List Char} {text : String} :
    Denotes piece (.string text) ↔ piece = text.toList ∧ ∃ s, text = encode s := by
  constructor
  · intro h
    cases h with
    | @string body hbody =>
        refine ⟨String.toList_ofList.symm, String.ofList (halve body), ?_⟩
        rw [encode, String.toList_ofList, encodeChars, double_halve hbody]
    | mark h => simp [marks] at h
  · rintro ⟨rfl, s, rfl⟩
    have hstring := Denotes.string (isQuotable_double s.toList)
    rwa [encode, encodeChars, String.toList_ofList]

/-! ## Literals as texts -/

theorem isLongest_whole {piece : List Char} {token : Token} (h : Denotes piece token) :
    IsLongest piece piece token :=
  ⟨List.prefix_refl piece, h, fun _ _ hfront _ => hfront.length_le⟩

theorem byteLength_toList (s : String) : byteLength s.toList = s.utf8ByteSize := by
  rw [← String.ofList_toList (s := s), String.toList_ofList]
  induction s.toList with
  | nil => rfl
  | cons c cs ih =>
      rw [String.ofList_cons, String.utf8ByteSize_append, String.utf8ByteSize_singleton, ← ih]
      rfl

/-- A text that is a token as a whole has this token only. -/
theorem scan_of_denotes {source : String} {token : Token} (h : Denotes source.toList token)
    (hfit : ∀ index, token = .positional index → index < indexLimit) :
    scan source = .ok [⟨token, ⟨0, source.utf8ByteSize⟩⟩] := by
  have hlongest : IsLongest (source.toList ++ []) source.toList token := by
    rw [List.append_nil]
    exact isLongest_whole h
  have hcut : Cut 0 (source.toList ++ [])
      [⟨token, ⟨0, 0 + byteLength source.toList⟩⟩] := .piece hlongest .done
  rw [List.append_nil, Nat.zero_add, byteLength_toList] at hcut
  rw [scan_eq_ok_iff]
  refine scanFrom_of_cut hcut ?_
  rintro ⟨t, ht, index, hindex, hlarge⟩
  obtain rfl := List.mem_singleton.mp ht
  exact absurd (hfit index hindex) (Nat.not_lt.mpr hlarge)

/-- Every text is read from its literal, and the literal is one token; every string of a text
is the literal of what is read from it. -/
theorem quotations_faithful :
    (∀ s, scan (encode s) = .ok [⟨.string (encode s), ⟨0, (encode s).utf8ByteSize⟩⟩] ∧
      decode (encode s) = s) ∧
    ∀ source lexemes, scan source = .ok lexemes → ∀ lexeme ∈ lexemes, ∀ text,
      lexeme.token = .string text → encode (decode text) = text := by
  constructor
  · intro s
    have hdenotes : Denotes (encode s).toList (.string (encode s)) :=
      denotes_string_iff.mpr ⟨rfl, s, rfl⟩
    exact ⟨scan_of_denotes hdenotes (by rintro _ ⟨⟩), decode_encode s⟩
  · intro source lexemes hscan lexeme hlexeme text htext
    have hcut := cut_of_scanFrom _ _ (scan_eq_ok_iff.mp hscan)
    obtain ⟨_, piece, _, -, -, hlongest⟩ := hcut.segments.pieces lexeme hlexeme
    have hdenotes := hlongest.denotes
    rw [htext] at hdenotes
    obtain ⟨-, s, rfl⟩ := denotes_string_iff.mp hdenotes
    rw [decode_encode]

/-- Quotes at both ends and in a row, in a literal of its own and among other tokens. -/
theorem quotations_faithful_quotes :
    scan "'''''é'''" = .ok [⟨.string "'''''é'''", ⟨0, 10⟩⟩] ∧ decode "'''''é'''" = "''é'" ∧
      encode (decode "''''''") = "''''''" := by
  have hencode : encode "''é'" = "'''''é'''" := by decide
  have hscan : scan "x ='''''' " = .ok
      [⟨.word "x", ⟨0, 1⟩⟩, ⟨.equal, ⟨2, 3⟩⟩, ⟨.string "''''''", ⟨3, 9⟩⟩] := by decide +kernel
  have hliteral := quotations_faithful.1 "''é'"
  rw [hencode] at hliteral
  exact ⟨hliteral.1, hliteral.2,
    quotations_faithful.2 _ _ hscan ⟨.string "''''''", ⟨3, 9⟩⟩ (by simp) _ rfl⟩

end RowGuard.Query
