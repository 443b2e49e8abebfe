import RowGuard.Proofs.Lexing

/-!
# The longest piece at the front of a text

Which token a piece of text denotes is laid down here class by class, apart from how pieces
are found.  What is cut off at the front of a text is the longest piece there that denotes a
token.  Where nothing can be cut off, no piece denotes one, apart from an index that is too
large and from a string that is not closed: a shorter string may end at each of its doubled
quotes.
-/

namespace RowGuard.Query

open Scan

/-! ## What pieces denote -/

/-- Characters that may stand between the quotes of a string, each quote written twice. -/
inductive IsQuotable : List Char → Prop
  | nil : IsQuotable []
  | quote {cs : List Char} : IsQuotable cs → IsQuotable ('\'' :: '\'' :: cs)
  | other {c : Char} {cs : List Char} : c ≠ '\'' → IsQuotable cs → IsQuotable (c :: cs)

/-- Digits, at least one. -/
def AreDigits (cs : List Char) : Prop := cs ≠ [] ∧ ∀ c ∈ cs, isDigit c

/-- An exponent with or without a sign, or nothing. -/
inductive IsExponent : List Char → Prop
  | absent : IsExponent []
  | unsigned {e : Char} {ds : List Char} : e = 'e' ∨ e = 'E' → AreDigits ds →
      IsExponent (e :: ds)
  | signed {e s : Char} {ds : List Char} : e = 'e' ∨ e = 'E' → s = '+' ∨ s = '-' →
      AreDigits ds → IsExponent (e :: s :: ds)

/-- The marks and what each of them is written as. -/
def marks : List (List Char × Token) :=
  [(['='], .equal), (['<', '>'], .notEqual), (['!', '='], .notEqual),
    (['<', '='], .lessOrEqual), (['>', '='], .greaterOrEqual), (['<'], .less),
    (['>'], .greater), (['+'], .plus), (['-'], .minus), (['*'], .star), (['/'], .slash),
    (['.'], .dot), ([','], .comma), (['('], .opening), ([')'], .closing)]

/-- The token that a piece of text denotes.  An index may have any value here. -/
inductive Denotes : List Char → Token → Prop
  | word {c : Char} {cs : List Char} : isWordStart c → (∀ d ∈ cs, isWordPart d) →
      Denotes (c :: cs) (.word (String.ofList (c :: cs)))
  | string {cs : List Char} : IsQuotable cs →
      Denotes ('\'' :: (cs ++ ['\''])) (.string (String.ofList ('\'' :: (cs ++ ['\'']))))
  | integer {ds : List Char} : AreDigits ds → Denotes ds (.integer (String.ofList ds))
  | decimal {ds fs es : List Char} : AreDigits ds → AreDigits fs → IsExponent es →
      Denotes (ds ++ '.' :: (fs ++ es)) (.decimal (String.ofList (ds ++ '.' :: (fs ++ es))))
  | named {c : Char} {cs : List Char} : isLetter c → (∀ d ∈ cs, isParameterPart d) →
      Denotes (':' :: c :: cs) (.named (String.ofList (c :: cs)))
  | positional {ds : List Char} : AreDigits ds →
      Denotes ('?' :: ds) (.positional (decimalValue ds))
  | mark {cs : List Char} {token : Token} : (cs, token) ∈ marks → Denotes cs token

/-- The piece at the front of a text denotes a token, and no longer one denotes any. -/
structure IsLongest (input piece : List Char) (token : Token) : Prop where
  front : piece <+: input
  denotes : Denotes piece token
  longest : ∀ piece' token', piece' <+: input → Denotes piece' token' →
    piece'.length ≤ piece.length

theorem AreDigits.exists_cons {ds : List Char} (h : AreDigits ds) :
    ∃ d rest, ds = d :: rest ∧ isDigit d ∧ ∀ c ∈ rest, isDigit c := by
  cases ds with
  | nil => exact absurd rfl h.1
  | cons d rest => exact ⟨d, rest, rfl, List.forall_mem_cons.mp h.2⟩

theorem Denotes.ne_nil {piece : List Char} {token : Token} (h : Denotes piece token) :
    piece ≠ [] := by
  cases h with
  | word => exact List.cons_ne_nil _ _
  | string => exact List.cons_ne_nil _ _
  | integer hds => exact hds.1
  | decimal hds => simp
  | named => exact List.cons_ne_nil _ _
  | positional => exact List.cons_ne_nil _ _
  | mark h =>
      rintro rfl
      simp [marks] at h

/-! ## The class of a piece -/

/-- Digits with a fraction and maybe an exponent, behind the first digit. -/
def IsFractional (cs : List Char) : Prop :=
  ∃ ds fs es, (∀ d ∈ ds, isDigit d) ∧ AreDigits fs ∧ IsExponent es ∧ cs = ds ++ '.' :: (fs ++ es)

/-- What a piece denotes, told by its first character. -/
def DenotesBehind (c : Char) (cs : List Char) (token : Token) : Prop :=
  if isWordStart c then (∀ d ∈ cs, isWordPart d) ∧ token = .word (String.ofList (c :: cs))
  else if isDigit c then
    ((∀ d ∈ cs, isDigit d) ∧ token = .integer (String.ofList (c :: cs))) ∨
      (IsFractional cs ∧ token = .decimal (String.ofList (c :: cs)))
  else if c = '\'' then
    ∃ body, IsQuotable body ∧ cs = body ++ ['\''] ∧ token = .string (String.ofList (c :: cs))
  else if c = ':' then
    cs.head?.any isLetter ∧ (∀ d ∈ cs, isParameterPart d) ∧ token = .named (String.ofList cs)
  else if c = '?' then AreDigits cs ∧ token = .positional (decimalValue cs)
  else (c :: cs, token) ∈ marks

theorem isWordStart_eq_false_of_mem_marks {c : Char} {cs : List Char} {token : Token}
    (h : (c :: cs, token) ∈ marks) :
    isWordStart c = false ∧ isDigit c = false ∧ c ≠ '\'' ∧ c ≠ ':' ∧ c ≠ '?' := by
  have hmarks : marks.all fun m => m.1.head?.all fun c =>
      isWordStart c = false ∧ isDigit c = false ∧ c ≠ '\'' ∧ c ≠ ':' ∧ c ≠ '?' := by decide
  exact of_decide_eq_true (List.all_eq_true.mp hmarks _ h)

theorem isParameterPart_of_isLetter {c : Char} (h : isLetter c) : isParameterPart c := by
  rw [isParameterPart, h, Bool.true_or]

theorem denotes_cons_iff {c : Char} {cs : List Char} {token : Token} :
    Denotes (c :: cs) token ↔ DenotesBehind c cs token := by
  constructor
  · intro h
    generalize hpiece : c :: cs = piece at h
    cases h with
    | word hc hcs =>
        cases hpiece
        rw [DenotesBehind, if_pos hc]
        exact ⟨hcs, rfl⟩
    | string hbody =>
        cases hpiece
        exact ⟨_, hbody, rfl, rfl⟩
    | integer hds =>
        obtain ⟨d, rest, rfl, hd, hrest⟩ := hds.exists_cons
        cases hpiece
        rw [DenotesBehind, if_neg (by simp [isWordStart_of_isDigit hd]), if_pos hd]
        exact Or.inl ⟨hrest, rfl⟩
    | decimal hds hfs hes =>
        obtain ⟨d, rest, rfl, hd, hrest⟩ := hds.exists_cons
        cases hpiece
        rw [DenotesBehind, if_neg (by simp [isWordStart_of_isDigit hd]), if_pos hd]
        exact Or.inr ⟨⟨rest, _, _, hrest, hfs, hes, rfl⟩, rfl⟩
    | named hc hcs =>
        cases hpiece
        exact ⟨hc, List.forall_mem_cons.mpr ⟨isParameterPart_of_isLetter hc, hcs⟩, rfl⟩
    | positional hds =>
        cases hpiece
        exact ⟨hds, rfl⟩
    | mark hmark =>
        subst hpiece
        obtain ⟨hword, hdigit, hquote, hcolon, hquestion⟩ := isWordStart_eq_false_of_mem_marks hmark
        rw [DenotesBehind, if_neg (by simp [hword]), if_neg (by simp [hdigit]), if_neg hquote,
          if_neg hcolon, if_neg hquestion]
        exact hmark
  · intro h
    unfold DenotesBehind at h
    split at h
    · obtain ⟨hcs, rfl⟩ := h
      exact .word ‹_› hcs
    · split at h
      · rename_i hdigit
        rcases h with ⟨hcs, rfl⟩ | ⟨⟨ds, fs, es, hds, hfs, hes, rfl⟩, rfl⟩
        · exact .integer ⟨List.cons_ne_nil c cs, List.forall_mem_cons.mpr ⟨hdigit, hcs⟩⟩
        · have hdigits : AreDigits (c :: ds) :=
            ⟨List.cons_ne_nil c ds, List.forall_mem_cons.mpr ⟨hdigit, hds⟩⟩
          exact .decimal hdigits hfs hes
      · split at h
        · subst c
          obtain ⟨body, hbody, rfl, rfl⟩ := h
          exact .string hbody
        · split at h
          · subst c
            obtain ⟨hhead, hcs, rfl⟩ := h
            cases cs with
            | nil => cases hhead
            | cons d cs => exact .named hhead (List.forall_mem_cons.mp hcs).2
          · split at h
            · subst c
              obtain ⟨hds, rfl⟩ := h
              exact .positional hds
            · exact .mark h

theorem not_digits_of_isFractional {cs : List Char} (h : IsFractional cs) :
    ¬∀ d ∈ cs, isDigit d := by
  obtain ⟨ds, fs, es, -, -, -, rfl⟩ := h
  intro hall
  have hpoint : isDigit '.' := hall '.' (by simp)
  cases hpoint

theorem mark_unique {cs : List Char} {token token' : Token} (h : (cs, token) ∈ marks)
    (h' : (cs, token') ∈ marks) : token = token' := by
  have hnodup : (marks.map Prod.fst).Nodup := by decide
  exact congrArg Prod.snd (List.inj_on_of_nodup_map hnodup h h' rfl)

/-- A piece denotes one token only. -/
theorem Denotes.unique {piece : List Char} {token token' : Token} (h : Denotes piece token)
    (h' : Denotes piece token') : token = token' := by
  cases piece with
  | nil => exact absurd rfl h.ne_nil
  | cons c cs =>
      rw [denotes_cons_iff] at h h'
      unfold DenotesBehind at h h'
      split at h
      · rw [if_pos ‹_›] at h'
        exact h.2.trans h'.2.symm
      rw [if_neg ‹_›] at h'
      split at h
      · rw [if_pos ‹_›] at h'
        rcases h with ⟨hdigits, rfl⟩ | ⟨hfraction, rfl⟩ <;>
          rcases h' with ⟨hdigits', rfl⟩ | ⟨hfraction', rfl⟩
        · rfl
        · exact absurd hdigits (not_digits_of_isFractional hfraction')
        · exact absurd hdigits' (not_digits_of_isFractional hfraction)
        · rfl
      rw [if_neg ‹_›] at h'
      split at h
      · rw [if_pos ‹_›] at h'
        obtain ⟨_, -, -, rfl⟩ := h
        obtain ⟨_, -, -, rfl⟩ := h'
        rfl
      rw [if_neg ‹_›] at h'
      split at h
      · rw [if_pos ‹_›] at h'
        exact h.2.2.trans h'.2.2.symm
      rw [if_neg ‹_›] at h'
      split at h
      · rw [if_pos ‹_›] at h'
        exact h.2.trans h'.2.symm
      rw [if_neg ‹_›] at h'
      exact mark_unique h h'

theorem IsLongest.unique {input piece piece' : List Char} {token token' : Token}
    (h : IsLongest input piece token) (h' : IsLongest input piece' token') :
    piece = piece' ∧ token = token' := by
  have hlength : piece.length = piece'.length :=
    Nat.le_antisymm (h'.longest piece token h.front h.denotes)
      (h.longest piece' token' h'.front h'.denotes)
  obtain rfl : piece = piece' :=
    (List.prefix_of_prefix_length_le h.front h'.front (Nat.le_of_eq hlength)).eq_of_length
      hlength
  exact ⟨rfl, h.denotes.unique h'.denotes⟩

/-! ## The longest piece of each class -/

/-- No prefix of a class is longer than the run. -/
theorem length_le_runLength {p : Char → Bool} {ds cs : List Char} (h : ds <+: cs)
    (hds : ∀ d ∈ ds, p d) : ds.length ≤ runLength p cs := by
  obtain ⟨rest, rfl⟩ := h
  rw [runLength, List.takeWhile_append_of_pos hds, List.length_append]
  exact Nat.le_add_right _ _

theorem areDigits_take {cs : List Char} (h : runLength isDigit cs ≠ 0) :
    AreDigits (cs.take (runLength isDigit cs)) := by
  refine ⟨fun hnil => ?_, all_take_runLength isDigit cs⟩
  rw [List.take_eq_nil_iff] at hnil
  rcases hnil with hzero | rfl
  · exact h hzero
  · exact h rfl

theorem AreDigits.le_runLength {ds cs : List Char} (hds : AreDigits ds) (h : ds <+: cs) :
    ds.length ≤ runLength isDigit cs ∧ runLength isDigit cs ≠ 0 := by
  have hle := length_le_runLength h hds.2
  have hpos := List.length_pos_of_ne_nil hds.1
  exact ⟨hle, by omega⟩

theorem stringTail_append {body : List Char} (h : IsQuotable body) (rest : List Char) :
    stringTail (body ++ rest) = (stringTail rest).map (· + body.length) := by
  induction h with
  | nil => simp
  | quote h ih =>
      rw [List.cons_append, List.cons_append, stringTail_quote_quote, ih, Option.map_map]
      rfl
  | other hc h ih =>
      rw [List.cons_append, stringTail_cons_of_ne hc, ih, Option.map_map]
      rfl

/-- A string that is closed has a quotable body. -/
theorem exists_body_of_stringTail (cs : List Char) : ∀ n, stringTail cs = some n →
    ∃ body rest, IsQuotable body ∧ cs = body ++ '\'' :: rest ∧ n = body.length + 1 := by
  induction cs using stringTail.induct with
  | case1 => simp [stringTail]
  | case2 =>
      rintro n ⟨⟩
      exact ⟨[], [], .nil, rfl, rfl⟩
  | case3 c hc => simp [stringTail, hc]
  | case4 cs ih =>
      intro n h
      rw [stringTail_quote_quote] at h
      obtain ⟨m, hm, rfl⟩ := Option.map_eq_some_iff.mp h
      obtain ⟨body, rest, hbody, rfl, rfl⟩ := ih m hm
      exact ⟨_, rest, .quote hbody, rfl, rfl⟩
  | case5 d cs hd =>
      intro n h
      rw [stringTail_quote (by simpa using hd)] at h
      obtain rfl := Option.some.inj h
      exact ⟨[], d :: cs, .nil, rfl, rfl⟩
  | case6 c d cs hc ih =>
      intro n h
      rw [stringTail_cons_of_ne hc] at h
      obtain ⟨m, hm, rfl⟩ := Option.map_eq_some_iff.mp h
      obtain ⟨body, rest, hbody, hcs, rfl⟩ := ih m hm
      exact ⟨c :: body, rest, .other hc hbody, by rw [hcs, List.cons_append], rfl⟩

/-- A closed string is the longest one: a quote that is not doubled ends it. -/
theorem length_le_of_stringTail {body rest : List Char} {n : Nat} (hbody : IsQuotable body)
    (h : stringTail (body ++ '\'' :: rest) = some n) : body.length + 1 ≤ n := by
  rw [stringTail_append hbody] at h
  obtain ⟨k, hk, rfl⟩ := Option.map_eq_some_iff.mp h
  obtain ⟨_, _, -, -, rfl⟩ := exists_body_of_stringTail _ k hk
  omega

theorem isExponent_take (cs : List Char) : IsExponent (cs.take (exponentLength cs)) := by
  rcases cs with - | ⟨e, cs⟩
  · exact .absent
  cases he : (e = 'e' || e = 'E') with
  | false =>
      rw [exponentLength_of_not_letter he]
      exact .absent
  | true =>
      have hletter : e = 'e' ∨ e = 'E' := by simpa using he
      by_cases hs : ∀ s ∈ cs.head?, (s = '+' || s = '-') = false
      · rw [exponentLength_unsigned he hs]
        by_cases hn : runLength isDigit cs = 0
        · rw [counted, if_pos hn]
          exact .absent
        · rw [counted, if_neg hn, List.take_succ_cons]
          exact .unsigned hletter (areDigits_take hn)
      · rcases cs with - | ⟨s, digits⟩
        · simp at hs
        replace hs : s = '+' ∨ s = '-' := by
          simpa [Decidable.or_iff_not_imp_left] using hs
        rw [exponentLength_signed he (by simpa using hs)]
        by_cases hn : runLength isDigit digits = 0
        · rw [counted, if_pos hn]
          exact .absent
        · rw [counted, if_neg hn, List.take_succ_cons, List.take_succ_cons]
          exact .signed hletter hs (areDigits_take hn)

theorem not_sign_of_isDigit {c : Char} (hc : isDigit c) : (c = '+' || c = '-') = false := by
  refine Bool.eq_false_iff.mpr fun hsign => ?_
  simp only [Bool.or_eq_true, decide_eq_true_eq] at hsign
  rcases hsign with rfl | rfl <;> cases hc

theorem IsExponent.length_le {es cs : List Char} (hes : IsExponent es) (h : es <+: cs) :
    es.length ≤ exponentLength cs := by
  obtain ⟨rest, rfl⟩ := h
  cases hes with
  | absent => exact Nat.zero_le _
  | @unsigned e ds he hds =>
      obtain ⟨hle, hn⟩ := hds.le_runLength (List.prefix_append ds rest)
      obtain ⟨d, ds, rfl, hd, -⟩ := hds.exists_cons
      rw [List.cons_append, exponentLength_unsigned (by simpa using he), counted, if_neg hn]
      · exact Nat.succ_le_succ hle
      · rintro s ⟨⟩
        exact not_sign_of_isDigit hd
  | @signed e s ds he hs hds =>
      obtain ⟨hle, hn⟩ := hds.le_runLength (List.prefix_append ds rest)
      rw [List.cons_append, List.cons_append,
        exponentLength_signed (by simpa using he) (by simpa using hs), counted, if_neg hn]
      exact Nat.succ_le_succ (Nat.succ_le_succ hle)

/-- Digits before an exponent that is there are a whole run. -/
theorem runLength_append_exponent {fs es : List Char} (hfs : AreDigits fs) (hes : IsExponent es)
    (hne : es ≠ []) (rest : List Char) : runLength isDigit (fs ++ (es ++ rest)) = fs.length := by
  refine runLength_append hfs.2 ?_
  cases hes with
  | absent => exact absurd rfl hne
  | unsigned he | signed he =>
      rintro d ⟨⟩
      rcases he with rfl | rfl <;> rfl

/-- No fraction with its exponent is longer than the one that is taken. -/
theorem length_le_fractionLength {fs es cs : List Char} (hfs : AreDigits fs) (hes : IsExponent es)
    (h : '.' :: (fs ++ es) <+: cs) : (fs ++ es).length + 1 ≤ fractionLength cs := by
  obtain ⟨rest, rfl⟩ := h
  obtain ⟨hle, hn⟩ := hfs.le_runLength (List.prefix_append fs (es ++ rest))
  rw [List.cons_append, List.append_assoc, fractionLength_point, counted, if_neg hn]
  by_cases hne : es = []
  · subst hne
    rw [List.append_nil]
    omega
  · rw [runLength_append_exponent hfs hes hne, List.drop_left, List.length_append]
    have := hes.length_le (List.prefix_append es rest)
    omega

theorem exists_fraction_take {cs : List Char} (h : fractionLength cs ≠ 0) :
    ∃ fs es, AreDigits fs ∧ IsExponent es ∧
      cs.take (fractionLength cs) = '.' :: (fs ++ es) := by
  rcases cs with - | ⟨c, cs⟩
  · exact absurd rfl h
  by_cases hc : c = '.'
  · subst hc
    rw [fractionLength_point, counted] at h ⊢
    by_cases hn : runLength isDigit cs = 0
    · exact absurd (if_pos hn) h
    · refine ⟨_, _, areDigits_take hn, isExponent_take (cs.drop (runLength isDigit cs)), ?_⟩
      rw [if_neg hn, Nat.add_comm 1, ← Nat.add_assoc, List.take_succ_cons, List.take_add]
  · exact absurd (by simp [fractionLength, hc]) h

/-! ## Cutting off the longest piece -/

theorem munch_string (cs : List Char) :
    munch '\'' cs = (stringTail cs).elim (none, cs.length)
      fun n => (some (.string (String.ofList ('\'' :: cs.take n))), n) := by
  rw [munch, if_neg (by decide), if_neg (by decide)]
  simp only
  cases stringTail cs <;> rfl

theorem munch_named (cs : List Char) :
    munch ':' cs = if cs.head?.any isLetter then
        (some (.named (String.ofList (cs.take (runLength isParameterPart cs)))),
          runLength isParameterPart cs)
      else (none, 0) := by
  rw [munch, if_neg (by decide), if_neg (by decide)]
  cases cs <;> rfl

theorem munch_positional (cs : List Char) :
    munch '?' cs = if runLength isDigit cs = 0 then (none, 0)
      else if decimalValue (cs.take (runLength isDigit cs)) < indexLimit then
        (some (.positional (decimalValue (cs.take (runLength isDigit cs)))), runLength isDigit cs)
      else (none, runLength isDigit cs) := by
  rw [munch, if_neg (by decide), if_neg (by decide)]
  rfl

/-- A mark at the front of a text is cut off, or one that goes on behind it. -/
theorem munch_of_mem_marks {c : Char} {piece cs : List Char} {token : Token}
    (hmark : (c :: piece, token) ∈ marks) (h : piece <+: cs) :
    (munch c cs).1 ≠ none ∧ piece.length ≤ (munch c cs).2 := by
  obtain ⟨rest, rfl⟩ := h
  simp only [marks, List.mem_cons, Prod.mk.injEq, List.cons.injEq, List.not_mem_nil, or_false]
    at hmark
  rcases hmark with h | h | h | h | h | h | h | h | h | h | h | h | h | h | h <;>
    · obtain ⟨⟨rfl, rfl⟩, -⟩ := h
      refine ⟨?_, by first | exact Nat.zero_le _ | exact Nat.le_refl 1⟩
      rw [munch, if_neg (by decide), if_neg (by decide)]
      simp only [ne_eq]
      repeat' split
      all_goals first | exact Option.some_ne_none _ | (rename_i hhead; exact absurd rfl hhead)

/-- What is cut off as a fraction is one: the digits, a point and what follows it. -/
theorem length_le_of_isFractional {piece cs : List Char} (hpiece : IsFractional piece)
    (h : piece <+: cs) :
    piece.length ≤ runLength isDigit cs + fractionLength (cs.drop (runLength isDigit cs)) ∧
      fractionLength (cs.drop (runLength isDigit cs)) ≠ 0 := by
  obtain ⟨ds, fs, es, hds, hfs, hes, rfl⟩ := hpiece
  obtain ⟨rest, rfl⟩ := h
  have hrun : runLength isDigit (ds ++ ('.' :: (fs ++ es) ++ rest)) = ds.length :=
    runLength_append hds (by rintro d ⟨⟩; rfl)
  have hle := length_le_fractionLength hfs hes (List.prefix_append ('.' :: (fs ++ es)) rest)
  rw [List.append_assoc, hrun, List.drop_left, List.length_append, List.length_cons]
  omega

/-- No piece at the front of a text that denotes a token is longer than what is cut off. -/
theorem length_le_munch {c : Char} {piece cs : List Char} {token : Token}
    (h : Denotes (c :: piece) token) (hfront : piece <+: cs) :
    piece.length ≤ (munch c cs).2 := by
  rw [denotes_cons_iff] at h
  unfold DenotesBehind at h
  split at h
  · rw [munch_word ‹_›]
    exact length_le_runLength hfront h.1
  split at h
  · rw [munch_number ‹_›]
    rcases h with ⟨hdigits, -⟩ | ⟨hfraction, -⟩
    · have hle := length_le_runLength hfront hdigits
      split
      · exact hle
      · exact Nat.le_add_right_of_le hle
    · obtain ⟨hle, hne⟩ := length_le_of_isFractional hfraction hfront
      rw [if_neg hne]
      exact hle
  split at h
  · subst c
    obtain ⟨body, hbody, rfl, -⟩ := h
    rw [munch_string]
    cases htail : stringTail cs with
    | none => exact hfront.length_le
    | some n =>
        obtain ⟨rest, rfl⟩ := hfront
        rw [List.append_assoc] at htail
        rw [List.length_append]
        exact length_le_of_stringTail hbody htail
  split at h
  · subst c
    obtain ⟨hhead, hparts, -⟩ := h
    obtain ⟨rest, rfl⟩ := hfront
    rw [munch_named, if_pos]
    · exact length_le_runLength (List.prefix_append piece rest) hparts
    · cases piece with
      | nil => cases hhead
      | cons d ds => exact hhead
  split at h
  · subst c
    obtain ⟨hle, hn⟩ := h.1.le_runLength hfront
    rw [munch_positional, if_neg hn]
    split <;> exact hle
  · exact (munch_of_mem_marks h hfront).2

theorem denotes_munch_number {c : Char} (hc : isDigit c) {cs : List Char} {token : Token} {n : Nat}
    (h : munch c cs = (some token, n)) : Denotes (c :: cs.take n) token := by
  rw [munch_number hc] at h
  have hdigits : AreDigits (c :: cs.take (runLength isDigit cs)) :=
    ⟨List.cons_ne_nil _ _, List.forall_mem_cons.mpr ⟨hc, all_take_runLength isDigit cs⟩⟩
  split at h
  · cases h
    exact .integer hdigits
  · cases h
    obtain ⟨fs, es, hfs, hes, htake⟩ := exists_fraction_take ‹_›
    rw [List.take_add, htake]
    exact .decimal hdigits hfs hes

theorem denotes_munch_string {cs : List Char} {token : Token} {n : Nat}
    (h : munch '\'' cs = (some token, n)) : Denotes ('\'' :: cs.take n) token := by
  rw [munch_string] at h
  cases htail : stringTail cs with
  | none =>
      rw [htail] at h
      cases h
  | some =>
      rw [htail] at h
      cases h
      obtain ⟨body, rest, hbody, rfl, rfl⟩ := exists_body_of_stringTail cs _ htail
      rw [List.take_length_add_append]
      exact .string hbody

theorem denotes_munch_named {cs : List Char} {token : Token} {n : Nat}
    (h : munch ':' cs = (some token, n)) : Denotes (':' :: cs.take n) token := by
  rw [munch_named] at h
  split at h
  · cases h
    have hparts := all_take_runLength isParameterPart cs
    rename_i hd
    cases cs with
    | nil => cases hd
    | cons d ds =>
        replace hd : isLetter d := hd
        have hlong : runLength isParameterPart (d :: ds) = runLength isParameterPart ds + 1 := by
          rw [runLength, List.takeWhile_cons_of_pos (isParameterPart_of_isLetter hd)]
          rfl
        rw [hlong, List.take_succ_cons] at hparts ⊢
        exact .named hd (List.forall_mem_cons.mp hparts).2
  · cases h

theorem denotes_munch_positional {cs : List Char} {token : Token} {n : Nat}
    (h : munch '?' cs = (some token, n)) :
    Denotes ('?' :: cs.take n) token := by
  rw [munch_positional] at h
  split at h
  · cases h
  split at h
  · cases h
    exact .positional (areDigits_take ‹_›)
  · cases h

theorem mem_marks_of_munch {c : Char} {cs : List Char} {token : Token} {n : Nat}
    (hword : ¬isWordStart c) (hdigit : ¬isDigit c) (hquote : c ≠ '\'') (hcolon : c ≠ ':')
    (hquestion : c ≠ '?') (h : munch c cs = (some token, n)) : (c :: cs.take n, token) ∈ marks := by
  have hone : ∀ {d : Char}, (cs.head? == some d) = true → cs.take 1 = [d] := by
    intro d hd
    rw [List.take_one, eq_of_beq hd]
    rfl
  rw [munch, if_neg hword, if_neg hdigit] at h
  simp only at h
  split at h
  · exact absurd rfl hquote
  · exact absurd rfl hcolon
  · exact absurd rfl hquestion
  all_goals repeat' split at h
  all_goals cases h
  all_goals first
    | (rename_i hhead; simp [marks, hone hhead])
    | simp [marks]

/-- What is cut off denotes the token that it is taken for. -/
theorem denotes_munch {c : Char} {cs : List Char} {token : Token} {n : Nat}
    (h : munch c cs = (some token, n)) : Denotes (c :: cs.take n) token := by
  by_cases hword : isWordStart c
  · rw [munch_word hword] at h
    cases h
    exact .word hword (all_take_runLength isWordPart cs)
  by_cases hdigit : isDigit c
  · exact denotes_munch_number hdigit h
  by_cases hquote : c = '\''
  · subst hquote
    exact denotes_munch_string h
  by_cases hcolon : c = ':'
  · subst hcolon
    exact denotes_munch_named h
  by_cases hquestion : c = '?'
  · subst hquestion
    exact denotes_munch_positional h
  · exact .mark (mem_marks_of_munch hword hdigit hquote hcolon hquestion h)

theorem length_take_munch {c : Char} {cs : List Char} {token : Token} {n : Nat}
    (h : munch c cs = (some token, n)) : (cs.take n).length = n :=
  List.length_take_of_le (munch_take h breaks_nil).2

/-- A piece is compared with those that begin alike only. -/
theorem isLongest_cons {c : Char} {piece cs : List Char} {token : Token} (hfront : piece <+: cs)
    (hdenotes : Denotes (c :: piece) token)
    (hlongest : ∀ piece' token', piece' <+: cs → Denotes (c :: piece') token' →
      piece'.length ≤ piece.length) : IsLongest (c :: cs) (c :: piece) token where
  front := List.cons_prefix_cons.mpr ⟨rfl, hfront⟩
  denotes := hdenotes
  longest := by
    intro piece' token' hfront' hdenotes'
    cases piece' with
    | nil => exact Nat.zero_le _
    | cons d piece' =>
        obtain ⟨rfl, htail⟩ := List.cons_prefix_cons.mp hfront'
        exact Nat.succ_le_succ (hlongest piece' token' htail hdenotes')

/-- What is cut off is the longest piece that denotes a token. -/
theorem isLongest_munch {c : Char} {cs : List Char} {token : Token} {n : Nat}
    (h : munch c cs = (some token, n)) : IsLongest (c :: cs) (c :: cs.take n) token := by
  refine isLongest_cons (List.take_prefix n cs) (denotes_munch h) ?_
  intro piece' token' hfront hdenotes
  have hle := length_le_munch hdenotes hfront
  rwa [h, ← length_take_munch h] at hle

/-- An index that is too large is the longest piece all the same. -/
theorem isLongest_index {cs : List Char} (h : runLength isDigit cs ≠ 0) :
    IsLongest ('?' :: cs) ('?' :: cs.take (runLength isDigit cs))
      (.positional (decimalValue (cs.take (runLength isDigit cs)))) := by
  refine isLongest_cons (List.take_prefix _ cs) (.positional (areDigits_take h)) ?_
  intro piece' token' hfront hdenotes
  have hdigits : AreDigits piece' := (denotes_cons_iff.mp hdenotes).1
  rw [List.length_take_of_le (runLength_le isDigit cs)]
  exact (hdigits.le_runLength hfront).1

/-- Where nothing is cut off, a string is not closed, or an index is too large, or no piece
denotes a token. -/
theorem refused_of_munch {c : Char} {cs : List Char} {n : Nat} (h : munch c cs = (none, n)) :
    (c = '\'' ∧ stringTail cs = none) ∨
      (∃ piece index, indexLimit ≤ index ∧ IsLongest (c :: cs) piece (.positional index)) ∨
      ∀ piece token, ¬IsLongest (c :: cs) piece token := by
  by_cases hnone : ∀ piece token, ¬IsLongest (c :: cs) piece token
  · exact Or.inr (Or.inr hnone)
  simp only [not_forall, not_not] at hnone
  obtain ⟨piece, token, hlongest⟩ := hnone
  cases hpiece : piece with
  | nil => exact absurd hpiece hlongest.denotes.ne_nil
  | cons d piece =>
    obtain ⟨hfront, hdenotes, -⟩ := hlongest
    rw [hpiece] at hfront hdenotes
    obtain ⟨rfl, htail⟩ := List.cons_prefix_cons.mp hfront
    rw [denotes_cons_iff] at hdenotes
    unfold DenotesBehind at hdenotes
    split at hdenotes
    · rw [munch_word ‹_›] at h
      cases h
    split at hdenotes
    · rw [munch_number ‹_›] at h
      split at h <;> cases h
    split at hdenotes
    · subst d
      rw [munch_string] at h
      cases hclosed : stringTail cs with
      | none => exact Or.inl ⟨rfl, rfl⟩
      | some =>
          rw [hclosed] at h
          cases h
    split at hdenotes
    · subst d
      obtain ⟨rest, rfl⟩ := htail
      rw [munch_named, if_pos] at h
      · cases h
      · cases piece with
        | nil => cases hdenotes.1
        | cons d ds => exact hdenotes.1
    split at hdenotes
    · subst d
      obtain ⟨-, hn⟩ := hdenotes.1.le_runLength htail
      rw [munch_positional, if_neg hn] at h
      split at h
      · cases h
      · exact Or.inr (Or.inl ⟨_, _, Nat.le_of_not_lt ‹_›, isLongest_index hn⟩)
    · exact absurd (congrArg Prod.fst h) (munch_of_mem_marks hdenotes htail).1

end RowGuard.Query
