import RowGuard.Proofs.Shapes
import RowGuard.Query.Scan

/-!
# Texts and their tokens

Where a token ends depends on the character behind it and on nothing further.
A blank, a comma and a closing bracket end every token, so a text may go on
with any of them without a change to the tokens it has spelled.  Texts that are
put together with these characters between them have the tokens of their parts.
-/

namespace RowGuard.Query

open Scan

/-! ## Lengths of tokens -/

namespace Scan

/-- Nothing follows, or a character that ends every token. -/
def Breaks (rest : List Char) : Prop :=
  ∀ d ∈ rest.head?, d = ' ' ∨ d = ',' ∨ d = ')'

theorem breaks_nil : Breaks [] := by
  simp [Breaks]

/-- The first character that follows is none of a class. -/
theorem Breaks.not_head {rest : List Char} (h : Breaks rest) {p : Char → Bool}
    (hp : p ' ' = false ∧ p ',' = false ∧ p ')' = false) : ∀ d ∈ rest.head?, p d = false := by
  intro d hd
  rcases h d hd with rfl | rfl | rfl
  · exact hp.1
  · exact hp.2.1
  · exact hp.2.2

theorem Breaks.head?_ne {rest : List Char} (h : Breaks rest) {c : Char}
    (hc : c ≠ ' ' ∧ c ≠ ',' ∧ c ≠ ')') : rest.head? ≠ some c := by
  intro hhead
  rcases h c hhead with rfl | rfl | rfl
  · exact hc.1 rfl
  · exact hc.2.1 rfl
  · exact hc.2.2 rfl

theorem runLength_le (p : Char → Bool) (cs : List Char) : runLength p cs ≤ cs.length :=
  (List.takeWhile_prefix p).length_le

/-- A run ends where a character of another class follows. -/
theorem runLength_append {p : Char → Bool} {cs rest : List Char} (hcs : ∀ c ∈ cs, p c)
    (hrest : ∀ d ∈ rest.head?, p d = false) : runLength p (cs ++ rest) = cs.length := by
  rw [runLength, List.takeWhile_append_of_pos hcs]
  cases rest with
  | nil => simp
  | cons d rest => simp [hrest d rfl]

theorem take_runLength (p : Char → Bool) (cs : List Char) :
    cs.take (runLength p cs) = cs.takeWhile p :=
  (List.prefix_iff_eq_take.mp (List.takeWhile_prefix p)).symm

theorem all_take_runLength (p : Char → Bool) (cs : List Char) :
    ∀ c ∈ cs.take (runLength p cs), p c := by
  intro c hc
  rw [take_runLength] at hc
  exact List.all_eq_true.mp List.all_takeWhile c hc

theorem runLength_take {p : Char → Bool} {rest : List Char} (hrest : ∀ d ∈ rest.head?, p d = false)
    (cs : List Char) : runLength p (cs.take (runLength p cs) ++ rest) = runLength p cs := by
  rw [runLength_append (all_take_runLength p cs) hrest, List.length_take,
    Nat.min_eq_left (runLength_le p cs)]

theorem head_drop_runLength (p : Char → Bool) (cs : List Char) :
    ∀ d ∈ (cs.drop (runLength p cs)).head?, p d = false := by
  induction cs with
  | nil => simp
  | cons c cs ih =>
      by_cases hc : p c
      · simpa [runLength, List.takeWhile_cons, hc] using ih
      · simp [runLength, hc]

/-- A run and `k` characters more: the run is the same, and so is what follows it. -/
theorem runLength_take_add {p : Char → Bool} {rest : List Char}
    (hrest : ∀ d ∈ rest.head?, p d = false) (cs : List Char) (k : Nat) :
    runLength p (cs.take (runLength p cs + k) ++ rest) = runLength p cs ∧
      (cs.take (runLength p cs + k) ++ rest).drop (runLength p cs) =
        (cs.drop (runLength p cs)).take k ++ rest := by
  have hsplit : cs.take (runLength p cs + k) ++ rest =
      cs.take (runLength p cs) ++ ((cs.drop (runLength p cs)).take k ++ rest) := by
    rw [List.take_add, List.append_assoc]
  have hlength : (cs.take (runLength p cs)).length = runLength p cs := by
    rw [List.length_take, Nat.min_eq_left (runLength_le p cs)]
  refine ⟨?_, by rw [hsplit, List.drop_left' hlength]⟩
  rw [hsplit, runLength_append (all_take_runLength p cs), hlength]
  intro d hd
  cases hk : (cs.drop (runLength p cs)).take k with
  | nil => exact hrest d (by simpa [hk] using hd)
  | cons e es =>
      refine head_drop_runLength p cs d ?_
      rw [hk] at hd
      have hhead := congrArg List.head? hk
      cases k with
      | zero => simp at hk
      | succ k => simpa [List.head?_take] using hhead.trans hd

theorem stringTail_cons_of_ne {c : Char} (hc : c ≠ '\'') (cs : List Char) :
    stringTail (c :: cs) = (stringTail cs).map (· + 1) := by
  cases cs with
  | nil => simp [stringTail, hc]
  | cons d cs => rw [stringTail, if_neg hc]

theorem stringTail_quote_quote (cs : List Char) :
    stringTail ('\'' :: '\'' :: cs) = (stringTail cs).map (· + 2) := by
  rw [stringTail, if_pos rfl, if_pos rfl]

theorem stringTail_quote {cs : List Char} (h : cs.head? ≠ some '\'') :
    stringTail ('\'' :: cs) = some 1 := by
  cases cs with
  | nil => rfl
  | cons d cs => rw [stringTail, if_pos rfl, if_neg fun hd => h (congrArg some hd)]

/-- A string ends where no further quote follows its last one. -/
theorem stringTail_take {rest : List Char} (hrest : rest.head? ≠ some '\'') (cs : List Char) :
    ∀ n, stringTail cs = some n → stringTail (cs.take n ++ rest) = some n ∧ n ≤ cs.length := by
  induction cs using stringTail.induct with
  | case1 => simp [stringTail]
  | case2 =>
      rintro n ⟨⟩
      exact ⟨stringTail_quote hrest, Nat.le_refl _⟩
  | case3 c hc => simp [stringTail, hc]
  | case4 cs ih =>
      intro n h
      rw [stringTail_quote_quote] at h
      obtain ⟨m, hm, rfl⟩ := Option.map_eq_some_iff.mp h
      obtain ⟨htail, hle⟩ := ih m hm
      refine ⟨?_, by simpa using hle⟩
      rw [List.take_succ_cons, List.take_succ_cons, List.cons_append, List.cons_append,
        stringTail_quote_quote, htail]
      rfl
  | case5 d cs hd =>
      intro n h
      rw [stringTail_quote (by simpa using hd)] at h
      obtain rfl := Option.some.inj h
      exact ⟨stringTail_quote hrest, by simp⟩
  | case6 c d cs hc ih =>
      intro n h
      rw [stringTail_cons_of_ne hc] at h
      obtain ⟨m, hm, rfl⟩ := Option.map_eq_some_iff.mp h
      obtain ⟨htail, hle⟩ := ih m hm
      refine ⟨?_, by simpa using hle⟩
      rw [List.take_succ_cons, List.cons_append, stringTail_cons_of_ne hc, htail]
      rfl

theorem exponentLength_of_breaks {rest : List Char} (h : Breaks rest) :
    exponentLength rest = 0 := by
  cases rest with
  | nil => rfl
  | cons d rest =>
      rcases h d rfl with rfl | rfl | rfl <;> rfl

/-- A count that is reported with its prefix, or not at all. -/
def counted (extra n : Nat) : Nat := if n = 0 then 0 else n + extra

theorem exponentLength_of_not_letter {e : Char} (he : (e = 'e' || e = 'E') = false)
    (cs : List Char) : exponentLength (e :: cs) = 0 := by
  simp only [exponentLength, he, Bool.false_eq_true, if_false]

theorem exponentLength_signed {e s : Char} (he : (e = 'e' || e = 'E') = true)
    (hs : (s = '+' || s = '-') = true) (digits : List Char) :
    exponentLength (e :: s :: digits) = counted 2 (runLength isDigit digits) := by
  simp only [exponentLength, he, hs, if_true, counted]

theorem exponentLength_unsigned {e : Char} (he : (e = 'e' || e = 'E') = true) {cs : List Char}
    (hs : ∀ s ∈ cs.head?, (s = '+' || s = '-') = false) :
    exponentLength (e :: cs) = counted 1 (runLength isDigit cs) := by
  cases cs with
  | nil => simp [exponentLength, counted, runLength]
  | cons s digits => simp only [exponentLength, he, hs s rfl, Bool.false_eq_true, if_false, if_true,
      counted]

theorem exponentLength_take {rest : List Char} (h : Breaks rest) (cs : List Char) :
    exponentLength (cs.take (exponentLength cs) ++ rest) = exponentLength cs ∧
      exponentLength cs ≤ cs.length := by
  have hdigit := h.not_head (p := isDigit) (by decide)
  have hnone : exponentLength cs = 0 → exponentLength (cs.take (exponentLength cs) ++ rest) =
      exponentLength cs ∧ exponentLength cs ≤ cs.length := by
    intro hzero
    rw [hzero]
    exact ⟨exponentLength_of_breaks h, Nat.zero_le _⟩
  rcases cs with - | ⟨e, cs⟩
  · exact hnone rfl
  cases he : (e = 'e' || e = 'E') with
  | false => exact hnone (exponentLength_of_not_letter he cs)
  | true =>
      by_cases hs : ∀ s ∈ cs.head?, (s = '+' || s = '-') = false
      · have hlength := exponentLength_unsigned he hs
        by_cases hn : runLength isDigit cs = 0
        · exact hnone (by rw [hlength, hn]; rfl)
        · rw [counted, if_neg hn] at hlength
          rw [hlength, List.take_succ_cons, List.cons_append, exponentLength_unsigned he,
            runLength_take hdigit, counted, if_neg hn]
          · exact ⟨rfl, Nat.succ_le_succ (runLength_le _ _)⟩
          · rcases cs with - | ⟨s, cs⟩
            · exact absurd rfl hn
            · intro d hd
              rcases Nat.exists_eq_succ_of_ne_zero hn with ⟨m, hm⟩
              rw [hm, List.take_succ_cons, List.cons_append] at hd
              exact hs d hd
      · rcases cs with - | ⟨s, digits⟩
        · simp at hs
        replace hs : (s = '+' || s = '-') = true := by
          simpa [Decidable.or_iff_not_imp_left] using hs
        have hlength := exponentLength_signed he hs digits
        by_cases hn : runLength isDigit digits = 0
        · exact hnone (by rw [hlength, hn]; rfl)
        · rw [counted, if_neg hn] at hlength
          rw [hlength, List.take_succ_cons, List.take_succ_cons, List.cons_append,
            List.cons_append, exponentLength_signed he hs, runLength_take hdigit, counted,
            if_neg hn]
          exact ⟨rfl, Nat.succ_le_succ (Nat.succ_le_succ (runLength_le _ _))⟩

theorem fractionLength_of_breaks {rest : List Char} (h : Breaks rest) :
    fractionLength rest = 0 := by
  cases rest with
  | nil => rfl
  | cons d rest =>
      rcases h d rfl with rfl | rfl | rfl <;> rfl

theorem fractionLength_point (cs : List Char) :
    fractionLength ('.' :: cs) = counted (1 + exponentLength (cs.drop (runLength isDigit cs)))
      (runLength isDigit cs) := by
  simp only [fractionLength, if_true, counted, Nat.add_assoc]

theorem fractionLength_take {rest : List Char} (h : Breaks rest) (cs : List Char) :
    fractionLength (cs.take (fractionLength cs) ++ rest) = fractionLength cs ∧
      fractionLength cs ≤ cs.length := by
  have hnone : fractionLength cs = 0 → fractionLength (cs.take (fractionLength cs) ++ rest) =
      fractionLength cs ∧ fractionLength cs ≤ cs.length := by
    intro hzero
    rw [hzero]
    exact ⟨fractionLength_of_breaks h, Nat.zero_le _⟩
  rcases cs with - | ⟨c, cs⟩
  · exact hnone rfl
  by_cases hc : c = '.'
  · subst hc
    have hlength := fractionLength_point cs
    by_cases hn : runLength isDigit cs = 0
    · exact hnone (by rw [hlength, hn]; rfl)
    · obtain ⟨hrun, hdrop⟩ := runLength_take_add (h.not_head (p := isDigit) (by decide)) cs
        (exponentLength (cs.drop (runLength isDigit cs)))
      obtain ⟨hexponent, hle⟩ := exponentLength_take h (cs.drop (runLength isDigit cs))
      rw [counted, if_neg hn, Nat.add_comm 1, ← Nat.add_assoc] at hlength
      rw [hlength, List.take_succ_cons, List.cons_append, fractionLength_point, hrun, hdrop,
        hexponent, counted, if_neg hn, Nat.add_comm 1, Nat.add_assoc]
      have := runLength_le isDigit cs
      rw [List.length_drop] at hle
      refine ⟨rfl, ?_⟩
      rw [List.length_cons]
      omega
  · exact hnone (by simp [fractionLength, hc])

/-! ## Cutting off one token -/

theorem munch_word {c : Char} (hc : isWordStart c) (cs : List Char) :
    munch c cs = (some (.word (String.ofList (c :: cs.take (runLength isWordPart cs)))),
      runLength isWordPart cs) := by
  rw [munch, if_pos hc]

theorem isWordStart_of_isDigit {c : Char} (hc : isDigit c) : isWordStart c = false := by
  simp only [isDigit, isWordStart, isLetter, Bool.and_eq_true, Bool.or_eq_false_iff,
    Bool.and_eq_false_iff, decide_eq_true_eq, decide_eq_false_iff_not, Char.le_def,
    UInt32.le_iff_toNat_le, Char.ext_iff, ← UInt32.toNat_inj] at hc ⊢
  simp only [Char.reduceVal, UInt32.reduceToNat] at hc ⊢
  omega

theorem munch_number {c : Char} (hc : isDigit c) (cs : List Char) :
    munch c cs =
      if fractionLength (cs.drop (runLength isDigit cs)) = 0 then
        (some (.integer (String.ofList (c :: cs.take (runLength isDigit cs)))),
          runLength isDigit cs)
      else
        (some (.decimal (String.ofList (c :: cs.take (runLength isDigit cs +
            fractionLength (cs.drop (runLength isDigit cs)))))),
          runLength isDigit cs + fractionLength (cs.drop (runLength isDigit cs))) := by
  rw [munch, if_neg (by simp [isWordStart_of_isDigit hc]), if_pos hc]

theorem take_take_append {n : Nat} {cs : List Char} (hn : n ≤ cs.length) (rest : List Char) :
    (cs.take n ++ rest).take n = cs.take n :=
  List.take_left' (List.length_take_of_le hn)

theorem head_take_one {cs : List Char} {d : Char} (h : cs.head? = some d) (rest : List Char) :
    (cs.take 1 ++ rest).head? = some d ∧ 1 ≤ cs.length := by
  cases cs with
  | nil => cases h
  | cons c cs => exact ⟨h, Nat.le_add_left _ _⟩

/-- A token is cut off the same way if only its own characters are kept, with anything
behind them that ends every token.  Words: -/
theorem munch_take_word {c : Char} {cs rest : List Char} {token : Token} {n : Nat}
    (hword : isWordStart c) (h : munch c cs = (some token, n)) (hrest : Breaks rest) :
    munch c (cs.take n ++ rest) = (some token, n) ∧ n ≤ cs.length := by
  rw [munch_word hword] at h
  cases h
  have hle := runLength_le isWordPart cs
  rw [munch_word hword, runLength_take (hrest.not_head (p := isWordPart) (by decide)) cs,
    take_take_append hle]
  exact ⟨rfl, hle⟩

/-- The same for numbers, where a fraction may follow the first digits. -/
theorem munch_take_number {c : Char} {cs rest : List Char} {token : Token} {n : Nat}
    (hdigit : isDigit c) (h : munch c cs = (some token, n)) (hrest : Breaks rest) :
    munch c (cs.take n ++ rest) = (some token, n) ∧ n ≤ cs.length := by
  rw [munch_number hdigit] at h
  have hle := runLength_le isDigit cs
  obtain ⟨hfraction, hfractionle⟩ := fractionLength_take hrest (cs.drop (runLength isDigit cs))
  obtain ⟨hrun, hdrop⟩ := runLength_take_add (hrest.not_head (p := isDigit) (by decide)) cs
    (fractionLength (cs.drop (runLength isDigit cs)))
  rw [List.length_drop] at hfractionle
  by_cases hm : fractionLength (cs.drop (runLength isDigit cs)) = 0
  · rw [if_pos hm] at h
    cases h
    rw [hm, Nat.add_zero] at hrun hdrop
    rw [munch_number hdigit, hrun, hdrop, take_take_append hle, if_pos (hm ▸ hfraction)]
    exact ⟨rfl, hle⟩
  · rw [if_neg hm] at h
    cases h
    rw [munch_number hdigit, hrun, hdrop, hfraction, if_neg hm, take_take_append (by omega)]
    exact ⟨rfl, by omega⟩

/-- The same for strings, parameters and marks. -/
theorem munch_take_mark {c : Char} {cs rest : List Char} {token : Token} {n : Nat}
    (hword : ¬isWordStart c) (hdigit : ¬isDigit c) (h : munch c cs = (some token, n))
    (hrest : Breaks rest) : munch c (cs.take n ++ rest) = (some token, n) ∧ n ≤ cs.length := by
  have hequal := hrest.head?_ne (c := '=') (by decide)
  have hgreater := hrest.head?_ne (c := '>') (by decide)
  rw [munch, if_neg hword, if_neg hdigit] at h
  rw [munch, if_neg hword, if_neg hdigit]
  simp only at h ⊢
  split at h
  · split at h
    · rename_i htail
      cases h
      obtain ⟨htake, hle⟩ := stringTail_take (hrest.head?_ne (by decide)) cs _ htail
      rw [htake]
      exact ⟨by simp only [take_take_append hle], hle⟩
    · cases h
  · split at h
    · rename_i hletter
      cases h
      have hle := runLength_le isParameterPart cs
      have hhead : ((cs.take (runLength isParameterPart cs) ++ rest).head?.map isLetter).getD
          false = true := by
        cases cs with
        | nil => cases hletter
        | cons d ds =>
            have hd : isParameterPart d = true := by
              rw [isParameterPart, show isLetter d = true from hletter, Bool.true_or]
            simpa [runLength, hd] using hletter
      rw [if_pos hhead, runLength_take (hrest.not_head (p := isParameterPart) (by decide)) cs,
        take_take_append hle]
      exact ⟨rfl, hle⟩
    · cases h
  · have hle := runLength_le isDigit cs
    split at h
    · cases h
    · split at h
      · rename_i hn hlimit
        cases h
        rw [runLength_take (hrest.not_head (p := isDigit) (by decide)) cs, take_take_append hle,
          if_neg hn, if_pos hlimit]
        exact ⟨rfl, hle⟩
      · cases h
  · cases h
    exact ⟨rfl, Nat.zero_le _⟩
  · split at h
    · rename_i hhead
      cases h
      obtain ⟨hhead', hle⟩ := head_take_one (eq_of_beq hhead) rest
      simp [hhead', hle]
    · split at h
      · rename_i hhead
        cases h
        obtain ⟨hhead', hle⟩ := head_take_one (eq_of_beq hhead) rest
        simp [hhead', hle]
      · cases h
        simp [hgreater, hequal]
  · split at h
    · rename_i hhead
      cases h
      obtain ⟨hhead', hle⟩ := head_take_one (eq_of_beq hhead) rest
      simp [hhead', hle]
    · cases h
      simp [hequal]
  · split at h
    · rename_i hhead
      cases h
      obtain ⟨hhead', hle⟩ := head_take_one (eq_of_beq hhead) rest
      simp [hhead', hle]
    · cases h
  all_goals cases h
  all_goals exact ⟨rfl, Nat.zero_le _⟩

theorem munch_take {c : Char} {cs rest : List Char} {token : Token} {n : Nat}
    (h : munch c cs = (some token, n)) (hrest : Breaks rest) :
    munch c (cs.take n ++ rest) = (some token, n) ∧ n ≤ cs.length := by
  by_cases hword : isWordStart c
  · exact munch_take_word hword h hrest
  by_cases hdigit : isDigit c
  · exact munch_take_number hdigit h hrest
  · exact munch_take_mark hword hdigit h hrest

end Scan

/-! ## Texts that spell tokens -/

/-- The characters are cut into these tokens, wherever they stand. -/
def Scans (cs : List Char) (ts : List Token) : Prop :=
  ∀ offset, ∃ lexemes, scanFrom offset cs = .ok lexemes ∧ lexemes.map Lexeme.token = ts

theorem scans_nil : Scans [] [] := fun _ => ⟨[], by rw [scanFrom], rfl⟩

theorem scans_blank {c : Char} (hc : isBlank c) {cs : List Char} {ts : List Token}
    (h : Scans cs ts) : Scans (c :: cs) ts := by
  intro offset
  rw [scanFrom, if_pos hc]
  exact h _

theorem scans_token {c : Char} (hc : isBlank c = false) {cs : List Char} {token : Token} {n : Nat}
    (hmunch : munch c cs = (some token, n)) {ts : List Token} (h : Scans (cs.drop n) ts) :
    Scans (c :: cs) (token :: ts) := by
  intro offset
  obtain ⟨lexemes, hscan, htokens⟩ := h (offset + byteLength (c :: cs.take n))
  rw [scanFrom, if_neg (by simp [hc])]
  simp only [hmunch, hscan]
  exact ⟨_, rfl, by rw [List.map_cons, htokens]⟩

/-- The text spells these tokens wherever it ends them. -/
def Spells (s : String) (ts : List Token) : Prop :=
  ∀ rest us, Breaks rest → Scans rest us → Scans (s.toList ++ rest) (ts ++ us)

/-- The text spells these tokens whatever follows it. -/
def Seals (s : String) (ts : List Token) : Prop :=
  ∀ rest us, Scans rest us → Scans (s.toList ++ rest) (ts ++ us)

/-- The text spells these tokens between any two texts. -/
def Separates (s : String) (ts : List Token) : Prop :=
  Seals s ts ∧ ∀ rest, Breaks (s.toList ++ rest)

theorem Seals.spells {s : String} {ts : List Token} (h : Seals s ts) : Spells s ts :=
  fun rest us _ => h rest us

theorem Seals.append {s u : String} {ts us : List Token} (h : Seals s ts) (h' : Seals u us) :
    Seals (s ++ u) (ts ++ us) := by
  intro rest vs hrest
  rw [String.toList_append, List.append_assoc, List.append_assoc]
  exact h _ _ (h' _ _ hrest)

theorem Seals.append_spells {s u : String} {ts us : List Token} (h : Seals s ts)
    (h' : Spells u us) : Spells (s ++ u) (ts ++ us) := by
  intro rest vs hbreaks hrest
  rw [String.toList_append, List.append_assoc, List.append_assoc]
  exact h _ _ (h' _ _ hbreaks hrest)

theorem Spells.append {s u : String} {ts us : List Token} (h : Spells s ts)
    (h' : Separates u us) : Seals (s ++ u) (ts ++ us) := by
  intro rest vs hrest
  rw [String.toList_append, List.append_assoc, List.append_assoc]
  exact h _ _ (h'.2 rest) (h'.1 _ _ hrest)

theorem Separates.append {s u : String} {ts us : List Token} (h : Separates s ts)
    (h' : Seals u us) : Separates (s ++ u) (ts ++ us) := by
  refine ⟨h.1.append h', fun rest => ?_⟩
  rw [String.toList_append, List.append_assoc]
  exact h.2 _

theorem seals_empty : Seals "" [] := fun _ _ h => h

theorem separates_blank : Separates " " [] :=
  ⟨fun _ _ h => scans_blank rfl h, fun _ _ hd => by cases hd; exact Or.inl rfl⟩

/-- A text that spells its tokens is read as these tokens. -/
theorem Spells.scan {s : String} {ts : List Token} (h : Spells s ts) :
    ∃ lexemes, scan s = .ok lexemes ∧ lexemes.map Lexeme.token = ts := by
  obtain ⟨lexemes, hscan, htokens⟩ := h [] [] breaks_nil scans_nil 0
  rw [List.append_nil] at hscan htokens
  exact ⟨lexemes, by rw [RowGuard.Query.scan, hscan], htokens⟩

/-! ## Texts of one token -/

theorem isBlank_of_munch {c : Char} {cs : List Char} {token : Token} {n : Nat}
    (h : munch c cs = (some token, n)) : isBlank c = false := by
  refine Bool.eq_false_iff.mpr fun hblank => ?_
  have hnone : munch c cs = (none, 0) := by
    simp only [isBlank, Bool.or_eq_true, decide_eq_true_eq] at hblank
    rcases hblank with (((rfl | rfl) | rfl) | rfl) | rfl <;> rfl
  rw [hnone] at h
  cases h

/-- What has been cut off as a token spells it. -/
theorem spells_of_munch {c : Char} {cs : List Char} {token : Token} {n : Nat}
    (h : munch c cs = (some token, n)) : Spells (String.ofList (c :: cs.take n)) [token] := by
  intro rest us hbreaks hrest
  obtain ⟨hmunch, hle⟩ := munch_take h hbreaks
  rw [String.toList_ofList, List.cons_append]
  refine scans_token (isBlank_of_munch h) hmunch ?_
  rw [List.drop_left' (List.length_take_of_le hle)]
  exact hrest

/-- The text can name things: a letter or a dollar sign, then also digits. -/
def isName (w : String) : Bool := w.toList.head?.any isWordStart && w.toList.all isWordPart

/-- The text can name a parameter. -/
def isParameterName (w : String) : Bool :=
  w.toList.head?.any isLetter && w.toList.all isParameterPart

/-- A name is read as a word before any character that does not belong to words. -/
theorem scans_word {w : String} (hw : isName w) {rest : List Char} {us : List Token}
    (hrest : ∀ d ∈ rest.head?, isWordPart d = false) (h : Scans rest us) :
    Scans (w.toList ++ rest) (.word w :: us) := by
  rw [isName, Bool.and_eq_true] at hw
  obtain ⟨hstart, hall⟩ := hw
  cases hcs : w.toList with
  | nil => simp [hcs] at hstart
  | cons c cs =>
      rw [hcs] at hstart hall
      have hc : isWordStart c := hstart
      have hrun : runLength isWordPart (cs ++ rest) = cs.length :=
        runLength_append (fun d hd => List.all_eq_true.mp hall d (List.mem_cons_of_mem c hd)) hrest
      have hmunch := munch_word hc (cs ++ rest)
      rw [hrun, List.take_left, ← hcs, String.ofList_toList] at hmunch
      rw [List.cons_append]
      exact scans_token (isBlank_of_munch hmunch) hmunch (by rwa [List.drop_left])

theorem seals_word_opening {w : String} (hw : isName w) : Seals (w ++ "(") [.word w, .opening] := by
  intro rest us h
  rw [String.toList_append, List.append_assoc]
  exact scans_word hw (fun d hd => by cases hd; rfl) (scans_token (n := 0) rfl rfl h)

theorem seals_word_dot {w : String} (hw : isName w) : Seals (w ++ ".") [.word w, .dot] := by
  intro rest us h
  rw [String.toList_append, List.append_assoc]
  exact scans_word hw (fun d hd => by cases hd; rfl) (scans_token (n := 0) rfl rfl h)

namespace Token

/-- The text that a token is written as. -/
def text : Token → String
  | .word text | .string text | .integer text | .decimal text => text
  | .named name => ":" ++ name
  | .positional index => "?" ++ toString index
  | .equal => "="
  | .notEqual => "<>"
  | .lessOrEqual => "<="
  | .greaterOrEqual => ">="
  | .less => "<"
  | .greater => ">"
  | .plus => "+"
  | .minus => "-"
  | .star => "*"
  | .slash => "/"
  | .dot => "."
  | .comma => ","
  | .opening => "("
  | .closing => ")"

/-- The token can be read from a text. -/
def Legal : Token → Prop
  | .word w => isName w
  | .named n => isParameterName n
  | .positional index => index < indexLimit
  | .string s => Spells s [.string s]
  | .integer s => Spells s [.integer s]
  | .decimal s => Spells s [.decimal s]
  | _ => True

end Token

theorem spells_word {w : String} (hw : isName w) : Spells w [.word w] :=
  fun _ _ hbreaks h => scans_word hw (hbreaks.not_head (by decide)) h

theorem spells_characters (c : Char) (cs : List Char) {t : Token}
    (h : munch c cs = (some t, cs.length)) : Spells (String.ofList (c :: cs)) [t] := by
  have hspells := spells_of_munch h
  rwa [List.take_length] at hspells

theorem munch_colon {cs : List Char} (hstart : cs.head?.any isLetter)
    (hall : ∀ c ∈ cs, isParameterPart c) :
    munch ':' cs = (some (.named (String.ofList cs)), cs.length) := by
  have hrun : runLength isParameterPart (cs ++ []) = cs.length := runLength_append hall (by simp)
  rw [List.append_nil] at hrun
  have hhead : (cs.head?.map isLetter).getD false = true := by
    cases cs with
    | nil => cases hstart
    | cons c cs => exact hstart
  rw [munch, if_neg (by decide), if_neg (by decide)]
  simp only [hhead, if_true, hrun, List.take_length]

theorem spells_named {n : String} (hn : isParameterName n) : Spells (":" ++ n) [.named n] := by
  rw [isParameterName, Bool.and_eq_true] at hn
  have h := spells_characters ':' n.toList (munch_colon hn.1 (List.all_eq_true.mp hn.2))
  have htext : ":" ++ n = String.ofList (':' :: n.toList) :=
    String.toList_injective (by simp)
  rw [String.ofList_toList] at h
  exact htext ▸ h

theorem isDigit_of_mem_digits {i : Nat} : ∀ c ∈ (toString i).toList, isDigit c := by
  intro c hc
  rw [Nat.toString_eq_ofList_toDigits, String.toList_ofList] at hc
  have hdigit := Nat.isDigit_of_mem_toDigits (by decide) (by decide) hc
  simpa [isDigit, Char.isDigit, Char.le_def] using hdigit

theorem decimalValue_digits (i : Nat) : decimalValue (toString i).toList = i := by
  rw [Nat.toString_eq_ofList_toDigits, String.toList_ofList]
  exact Nat.ofDigitChars_ten_toDigits

theorem munch_question {i : Nat} (hi : i < indexLimit) :
    munch '?' (toString i).toList = (some (.positional i), (toString i).toList.length) := by
  have hrun : runLength isDigit ((toString i).toList ++ []) = (toString i).toList.length :=
    runLength_append isDigit_of_mem_digits (by simp)
  rw [List.append_nil] at hrun
  have hpos : (toString i).toList.length ≠ 0 := by
    rw [Nat.toString_eq_ofList_toDigits, String.toList_ofList]
    exact Nat.pos_iff_ne_zero.mp Nat.length_toDigits_pos
  rw [munch, if_neg (by decide), if_neg (by decide)]
  simp only [hrun, List.take_length, if_neg hpos, decimalValue_digits, if_pos hi]

theorem spells_positional {i : Nat} (hi : i < indexLimit) :
    Spells ("?" ++ toString i) [.positional i] := by
  have h := spells_characters '?' (toString i).toList (munch_question hi)
  have htext : "?" ++ toString i = String.ofList ('?' :: (toString i).toList) :=
    String.toList_injective (by simp)
  exact htext ▸ h

theorem Token.Legal.spells {t : Token} (h : t.Legal) : Spells t.text [t] := by
  cases t with
  | word w => exact spells_word h
  | string s => exact h
  | integer s => exact h
  | decimal s => exact h
  | named n => exact spells_named h
  | positional i => exact spells_positional h
  | notEqual => exact spells_characters '<' ['>'] rfl
  | lessOrEqual => exact spells_characters '<' ['='] rfl
  | greaterOrEqual => exact spells_characters '>' ['='] rfl
  | equal => exact spells_characters '=' [] rfl
  | less => exact spells_characters '<' [] rfl
  | greater => exact spells_characters '>' [] rfl
  | plus => exact spells_characters '+' [] rfl
  | minus => exact spells_characters '-' [] rfl
  | star => exact spells_characters '*' [] rfl
  | slash => exact spells_characters '/' [] rfl
  | dot => exact spells_characters '.' [] rfl
  | comma => exact spells_characters ',' [] rfl
  | opening => exact spells_characters '(' [] rfl
  | closing => exact spells_characters ')' [] rfl

/-- A token between two blanks. -/
theorem Token.Legal.separates {t : Token} (h : t.Legal) :
    Separates (" " ++ (t.text ++ " ")) [t] :=
  separates_blank.append (h.spells.append separates_blank)

/-! ## Tokens of texts -/

theorem isName_of_munch {c : Char} (hc : isWordStart c) (cs : List Char) :
    isName (String.ofList (c :: cs.take (runLength isWordPart cs))) := by
  rw [isName, String.toList_ofList, Bool.and_eq_true]
  refine ⟨hc, List.all_eq_true.mpr fun d hd => ?_⟩
  rcases List.mem_cons.mp hd with rfl | hd
  · rw [isWordPart, hc, Bool.true_or]
  · exact all_take_runLength isWordPart cs d hd

theorem isParameterName_of_munch {cs : List Char}
    (hletter : (cs.head?.map isLetter).getD false = true) :
    isParameterName (String.ofList (cs.take (runLength isParameterPart cs))) := by
  rw [isParameterName, String.toList_ofList, Bool.and_eq_true]
  refine ⟨?_, List.all_eq_true.mpr (all_take_runLength isParameterPart cs)⟩
  cases cs with
  | nil => cases hletter
  | cons c cs =>
      have hc : isLetter c := hletter
      have hpart : isParameterPart c := by rw [isParameterPart, hc, Bool.true_or]
      simpa [runLength, hpart] using hc

/-- What is cut off as a token can be read from a text. -/
theorem legal_of_munch {c : Char} {cs : List Char} {token : Token} {n : Nat}
    (h : munch c cs = (some token, n)) : token.Legal := by
  have hspells := spells_of_munch h
  by_cases hword : isWordStart c
  · rw [munch_word hword] at h
    cases h
    exact isName_of_munch hword cs
  by_cases hdigit : isDigit c
  · rw [munch_number hdigit] at h
    split at h <;> cases h <;> exact hspells
  rw [munch, if_neg hword, if_neg hdigit] at h
  simp only at h
  -- strings and parameters first; a mark is legal as it is
  split at h
  · split at h <;> cases h
    exact hspells
  · split at h <;> cases h
    exact isParameterName_of_munch ‹_›
  · split at h
    · cases h
    · split at h <;> cases h
      assumption
  all_goals repeat' split at h
  all_goals cases h
  all_goals trivial

theorem legal_of_scanFrom (offset : Nat) (cs : List Char) {lexemes : List Lexeme}
    (h : scanFrom offset cs = .ok lexemes) : ∀ lexeme ∈ lexemes, lexeme.token.Legal := by
  match cs with
  | [] =>
      rw [scanFrom] at h
      cases h
      simp
  | c :: rest =>
      rw [scanFrom] at h
      split at h
      · exact legal_of_scanFrom _ rest h
      · simp only at h
        split at h
        · cases h
        · rename_i token hfound
          obtain ⟨others, hothers, h⟩ := Scope.ok_of_bind h
          cases h
          intro lexeme hmem
          rcases List.mem_cons.mp hmem with rfl | hmem
          · exact legal_of_munch (n := (munch c rest).2) (Prod.ext hfound rfl)
          · exact legal_of_scanFrom _ (rest.drop _) hothers lexeme hmem
termination_by cs.length
decreasing_by all_goals simp only [List.length_cons, List.length_drop]; omega

/-- All tokens of a text can be read from a text. -/
theorem legal_of_scan {source : String} {lexemes : List Lexeme} (h : scan source = .ok lexemes) :
    ∀ lexeme ∈ lexemes, lexeme.token.Legal := by
  unfold scan at h
  split at h
  · cases h
    exact legal_of_scanFrom _ _ ‹_›
  · cases h

end RowGuard.Query
