import RowGuard.Proofs.Operands

/-!
# Matching wildcard patterns

A text matches a pattern if it can be cut into pieces, one for each element that the
pattern is read as.  How a pattern is read and how a text is cut is laid down here apart
from how either is found.  A text whose wildcards are escaped is read as its own
characters, whatever the escape character is, so it matches nothing but that text.
-/

namespace RowGuard

open Query (Phrase)

namespace Text.Wildcard

/-! ## How patterns are read -/

/-- The elements that a pattern is read as, from left to right. -/
inductive Spells (escape : Char) : List Char → List Element → Prop
  | nil : Spells escape [] []
  /-- The escape character makes the wildcard behind it an ordinary character. -/
  | escaped {wildcard : Char} {rest : List Char} {es : List Element}
      (hwildcard : wildcard = '%' ∨ wildcard = '_') (hrest : Spells escape rest es) :
      Spells escape (escape :: wildcard :: rest) (.literal wildcard :: es)
  /-- Anywhere else it is an ordinary character itself. -/
  | escape {rest : List Char} {es : List Element}
      (hnext : rest.head? ≠ some '%' ∧ rest.head? ≠ some '_') (hrest : Spells escape rest es) :
      Spells escape (escape :: rest) (.literal escape :: es)
  | many {rest : List Char} {es : List Element} (hescape : '%' ≠ escape)
      (hrest : Spells escape rest es) : Spells escape ('%' :: rest) (.many :: es)
  | one {rest : List Char} {es : List Element} (hescape : '_' ≠ escape)
      (hrest : Spells escape rest es) : Spells escape ('_' :: rest) (.one :: es)
  | literal {c : Char} {rest : List Char} {es : List Element} (hescape : c ≠ escape)
      (hplain : c ≠ '%' ∧ c ≠ '_') (hrest : Spells escape rest es) :
      Spells escape (c :: rest) (.literal c :: es)

section Elements

variable {escape c d : Char} {rest : List Char}

theorem elements_cons_of_ne (hescape : c ≠ escape) (rest : List Char) :
    elements escape (c :: rest) = .ofChar c :: elements escape rest := by
  cases rest <;> simp [elements, hescape]

theorem elements_escaped (hwildcard : d = '%' ∨ d = '_') (rest : List Char) :
    elements escape (escape :: d :: rest) = .literal d :: elements escape rest := by
  rcases hwildcard with rfl | rfl <;> simp [elements, isWildcard]

theorem elements_escape (hnext : rest.head? ≠ some '%' ∧ rest.head? ≠ some '_') :
    elements escape (escape :: rest) = .literal escape :: elements escape rest := by
  cases rest with
  | nil => simp [elements]
  | cons d rest =>
      have hd : isWildcard d = false := by simpa [isWildcard] using hnext
      simp [elements, hd]

/-- A character other than the escape character is read by itself. -/
theorem Spells.ofChar {es : List Element} (hescape : c ≠ escape) (hrest : Spells escape rest es) :
    Spells escape (c :: rest) (.ofChar c :: es) := by
  rw [Element.ofChar]
  split
  · rename_i hmany
    subst hmany
    exact .many hescape hrest
  split
  · rename_i hone
    subst hone
    exact .one hescape hrest
  · exact .literal hescape ⟨‹_›, ‹_›⟩ hrest

end Elements

theorem spells_elements (escape : Char) (pattern : List Char) :
    Spells escape pattern (elements escape pattern) := by
  fun_induction elements escape pattern with
  | case1 => exact .nil
  | case2 c =>
      by_cases hc : c = escape
      · subst hc
        simpa using Spells.escape (by simp) .nil
      · simpa [hc] using Spells.ofChar hc .nil
  | case3 d rest hwildcard ih => exact .escaped (by simpa [isWildcard] using hwildcard) ih
  | case4 d rest hplain ih => exact .escape (by simpa [isWildcard] using hplain) ih
  | case5 c d rest hescape ih => exact .ofChar hescape ih

/-- Every pattern is read in one way, and there is no other one. -/
theorem spells_iff {escape : Char} {pattern : List Char} {es : List Element} :
    Spells escape pattern es ↔ es = elements escape pattern := by
  constructor
  · intro h
    induction h with
    | nil => rfl
    | escaped hwildcard _ ih => rw [elements_escaped hwildcard, ih]
    | escape hnext _ ih => rw [elements_escape hnext, ih]
    | many hescape _ ih => rw [elements_cons_of_ne hescape, ih]; rfl
    | one hescape _ ih => rw [elements_cons_of_ne hescape, ih]; rfl
    | literal hescape hplain _ ih =>
        rw [elements_cons_of_ne hescape, ih, Element.ofChar, if_neg hplain.1, if_neg hplain.2]
  · rintro rfl
    exact spells_elements escape pattern

/-! ## How texts are divided -/

/-- The pieces of a text that an element stands for. -/
def Element.StandsFor : Element → List Char → Prop
  | .literal c, piece => piece = [c]
  | .one, piece => ∃ c, piece = [c]
  | .many, _ => True

/-- A text can be cut into pieces that some elements stand for, one by one. -/
def Divides (es : List Element) (text : List Char) : Prop :=
  ∃ pieces, List.Forall₂ Element.StandsFor es pieces ∧ pieces.flatten = text

section Divisions

variable {e : Element} {es : List Element} {c d : Char} {text : List Char}

theorem divides_nil_iff : Divides [] text ↔ text = [] := by
  simp [Divides, eq_comm]

theorem divides_cons_iff : Divides (e :: es) text ↔
    ∃ piece rest, e.StandsFor piece ∧ Divides es rest ∧ piece ++ rest = text := by
  constructor
  · rintro ⟨pieces, hpieces, rfl⟩
    cases hpieces with
    | cons hpiece hrest => exact ⟨_, _, hpiece, ⟨_, hrest, rfl⟩, rfl⟩
  · rintro ⟨piece, rest, hpiece, ⟨pieces, hpieces, rfl⟩, rfl⟩
    exact ⟨piece :: pieces, .cons hpiece hpieces, rfl⟩

theorem divides_literal_iff :
    Divides (.literal c :: es) text ↔ ∃ rest, text = c :: rest ∧ Divides es rest := by
  rw [divides_cons_iff]
  constructor
  · rintro ⟨piece, rest, rfl, hrest, rfl⟩
    exact ⟨rest, rfl, hrest⟩
  · rintro ⟨rest, rfl, hrest⟩
    exact ⟨[c], rest, rfl, hrest, rfl⟩

theorem divides_one_iff :
    Divides (.one :: es) text ↔ ∃ c rest, text = c :: rest ∧ Divides es rest := by
  rw [divides_cons_iff]
  constructor
  · rintro ⟨piece, rest, ⟨c, rfl⟩, hrest, rfl⟩
    exact ⟨c, rest, rfl, hrest⟩
  · rintro ⟨c, rest, rfl, hrest⟩
    exact ⟨[c], rest, ⟨c, rfl⟩, hrest, rfl⟩

theorem divides_many_iff :
    Divides (.many :: es) text ↔ ∃ piece rest, piece ++ rest = text ∧ Divides es rest := by
  rw [divides_cons_iff]
  constructor
  · rintro ⟨piece, rest, -, hrest, heq⟩
    exact ⟨piece, rest, heq, hrest⟩
  · rintro ⟨piece, rest, heq, hrest⟩
    exact ⟨piece, rest, trivial, hrest, heq⟩

/-- The piece of an element that stands for anything ends at once, or it takes a character. -/
theorem divides_many_cons_iff : Divides (.many :: es) (c :: text) ↔
    Divides es (c :: text) ∨ Divides (.many :: es) text := by
  rw [divides_many_iff, divides_many_iff]
  constructor
  · rintro ⟨piece, rest, heq, hrest⟩
    cases piece with
    | nil => exact Or.inl (heq ▸ hrest)
    | cons d piece => exact Or.inr ⟨piece, rest, (List.cons.inj heq).2, hrest⟩
  · rintro (hrest | ⟨piece, rest, rfl, hrest⟩)
    · exact ⟨[], _, rfl, hrest⟩
    · exact ⟨c :: piece, rest, rfl, hrest⟩

/-- A text is accepted exactly if it can be divided among the elements. -/
theorem accepts_iff : accepts es text ↔ Divides es text := by
  induction es generalizing text with
  | nil => rw [accepts_nil, divides_nil_iff, List.isEmpty_iff]
  | cons e es ih =>
      cases e with
      | literal d =>
          rw [divides_literal_iff]
          cases text with
          | nil => simp [accepts_cons_nil]
          | cons c text => simp [accepts_cons_cons, ih]
      | one =>
          rw [divides_one_iff]
          cases text with
          | nil => simp [accepts_cons_nil]
          | cons c text => simp [accepts_cons_cons, ih]
      | many =>
          -- What the element stands for grows from the end of the text.
          induction text with
          | nil => simp [accepts_cons_nil, divides_many_iff, ih]
          | cons c text ihtext =>
              simp [accepts_cons_cons, divides_many_cons_iff, ih, ihtext]

end Divisions

/-! ## Matching -/

/-- The elements of a pattern divide a text. -/
def Matches (escape : Char) (pattern text : String) : Prop :=
  ∃ es, Spells escape pattern.toList es ∧ Divides es text.toList

theorem matchesPattern_iff {escape : Char} {pattern text : String} :
    matchesPattern escape pattern text ↔ Matches escape pattern text := by
  simp [matchesPattern, Matches, spells_iff, accepts_iff]

/-- The escape character stands for itself unless a wildcard is right behind it. -/
example : matchesPattern '!' "%!%!o__" "up to 100%!off" = true := by decide +kernel

/-- A text with the escape character before each of its wildcards. -/
def quotedChars (escape : Char) (cs : List Char) : List Char :=
  cs.flatMap fun c => if isWildcard c then [escape, c] else [c]

def quoted (escape : Char) (text : String) : String :=
  String.ofList (quotedChars escape text.toList)

/-- Where the escape character is no wildcard, what is quoted does not begin with one. -/
theorem isWildcard_of_head?_quotedChars {escape c : Char} {cs : List Char}
    (hescape : isWildcard escape = false) (hc : (quotedChars escape cs).head? = some c) :
    isWildcard c = false := by
  cases cs with
  | nil => cases hc
  | cons d cs =>
      cases hd : isWildcard d with
      | true =>
          obtain rfl : escape = c := by simpa [quotedChars, hd] using hc
          exact hescape
      | false =>
          obtain rfl : d = c := by simpa [quotedChars, hd] using hc
          exact hd

/-- A quoted text is read as its own characters. -/
theorem spells_quotedChars (escape : Char) (cs : List Char) :
    Spells escape (quotedChars escape cs) (cs.map .literal) := by
  induction cs with
  | nil => exact .nil
  | cons c cs ih =>
      have hcons : quotedChars escape (c :: cs) =
          (if isWildcard c then [escape, c] else [c]) ++ quotedChars escape cs := rfl
      cases hc : isWildcard c with
      | true =>
          rw [hcons, hc]
          exact .escaped (by simpa [isWildcard] using hc) ih
      | false =>
          rw [hcons, hc]
          by_cases hescape : c = escape
          · subst hescape
            refine .escape ⟨fun h => ?_, fun h => ?_⟩ ih <;>
              cases isWildcard_of_head?_quotedChars hc h
          · exact .literal hescape (by simpa [isWildcard] using hc) ih

theorem divides_literals_iff {cs text : List Char} :
    Divides (cs.map .literal) text ↔ text = cs := by
  induction cs generalizing text with
  | nil => exact divides_nil_iff
  | cons c cs ih => simp [divides_literal_iff, ih]

theorem matches_quoted_iff {escape : Char} {literal text : String} :
    Matches escape (quoted escape literal) text ↔ text = literal := by
  have hread : ∀ es, Spells escape (quoted escape literal).toList es ↔
      es = literal.toList.map .literal := fun es => by
    rw [spells_iff, quoted, String.toList_ofList, ← spells_iff.mp (spells_quotedChars _ _)]
  simp [Matches, hread, divides_literals_iff, String.toList_inj]

end Text.Wildcard

namespace Strings

open Text.Wildcard (Matches matchesPattern matchesPattern_iff)

variable {w : World} {v pattern : Value} {b : Bool} {c : Char}

theorem character_eq_ok {function : String} :
    character w function v = .ok c ↔ text w function v = .ok (String.singleton c) := by
  have hsingle : ∀ s : String, s = String.singleton c ↔ s.toList = [c] := fun s => by
    rw [← String.toList_inj, String.toList_singleton]
  unfold character
  cases text w function v with
  | error e => exact ⟨nofun, nofun⟩
  | ok s =>
      rw [Except.ok.injEq, hsingle]
      simp only [bind, Except.bind]
      split
      · rename_i d hd
        rw [hd]
        exact ⟨fun h => Except.ok.inj h ▸ rfl, fun h => (List.cons.inj h).1 ▸ rfl⟩
      · rename_i hmany
        exact ⟨nofun, fun h => absurd h (hmany c)⟩

/-- What is told of two values where the escape character is known. -/
def likeBy (escape : Char) (v pattern : Value) : Arithmetic.Result :=
  match v, pattern with
  | .string s, .string t => Arithmetic.give (.boolean (matchesPattern escape t s))
  | _, _ => Arithmetic.undefined

/-- Only strings match or fail to. -/
theorem likeBy_eq_ok : likeBy c v pattern = .ok (some (.boolean b)) ↔
    ∃ s t, v = .string s ∧ pattern = .string t ∧ (b ↔ Matches c t s) := by
  constructor
  · intro h
    unfold likeBy at h
    split at h
    · rename_i s t
      have hb : matchesPattern c t s = b := by simpa [Arithmetic.give] using h
      exact ⟨s, t, rfl, rfl, hb ▸ matchesPattern_iff⟩
    · cases h
  · rintro ⟨s, t, rfl, rfl, hb⟩
    rw [← matchesPattern_iff, ← Bool.eq_iff_iff] at hb
    exact hb ▸ rfl

/-- An escape character has to be given by the text of a value other than null. -/
theorem like_some_eq_ok {given : Value} {found : Value} :
    like w v pattern (some given) = .ok (some found) ↔
      ∃ c, given.isNull = false ∧ text w "ESCAPE" given = .ok (String.singleton c) ∧
        likeBy c v pattern = .ok (some found) := by
  have hlike : given.isNull = false → like w v pattern (some given) =
      character w "ESCAPE" given >>= fun c => likeBy c v pattern := by
    cases given with
    | null => exact nofun
    | _ => exact fun _ => rfl
  cases hnull : given.isNull with
  | true =>
      cases given with
      | null => exact ⟨nofun, nofun⟩
      | _ => cases hnull
  | false =>
      rw [hlike hnull]
      cases hc : character w "ESCAPE" given with
      | error e =>
          refine ⟨nofun, ?_⟩
          rintro ⟨c, -, htext, -⟩
          cases hc.symm.trans (character_eq_ok.mpr htext)
      | ok c =>
          constructor
          · exact fun h => ⟨c, rfl, character_eq_ok.mp hc, h⟩
          · rintro ⟨d, -, htext, h⟩
            obtain rfl := Except.ok.inj (hc.symm.trans (character_eq_ok.mpr htext))
            exact h

end Strings

/-! ## LIKE -/

namespace Evaluator

variable {ev : Evaluator} {n : Nat} {env : Environment}

/-- The escape character: the text of the value of an operand, or the one that stands for
itself without an operand. -/
def Escapes (ev : Evaluator) (n : Nat) (env : Environment) : Option Phrase → Char → Prop
  | none, c => c = '\\'
  | some z, c => ∃ v, (ev.valueAt n env z).run.outcome = .ok (some v) ∧ v.isNull = false ∧
      Strings.text ev.world "ESCAPE" v = .ok (String.singleton c)

end Evaluator

end RowGuard
