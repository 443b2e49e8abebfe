import RowGuard.Proofs.Clauses

/-!
# Tokens of printed phrases

A phrase that the grammar derives is printed as a text of tokens that recite it.
None of its operands stands where only a tighter phrase may stand, so no bracket
is added, and a blank, a comma or a bracket keeps the tokens of its parts apart.
-/

namespace RowGuard

open Query (Aggregate ArithmeticOperator Comparison Keyword Label Phrase Seals Separates Spells
  Token TrimSide isName scans_blank scans_token seals_empty seals_word_opening seals_word_dot
  separates_blank spells_word)
open Query.Phrase Query.Rendering

namespace Query

/-! ## Texts between others -/

section Texts

variable {s u sep w : String} {ts us vs : List Token} {token : Token}

theorem separates_comma : Separates ", " [.comma] :=
  ⟨fun _ _ h => scans_token (n := 0) rfl rfl (scans_blank rfl h),
    fun _ _ hc => by cases hc; exact Or.inr (Or.inl rfl)⟩

theorem separates_closing : Separates ")" [.closing] :=
  ⟨fun _ _ h => scans_token (n := 0) rfl rfl h,
    fun _ _ hc => by cases hc; exact Or.inr (Or.inr rfl)⟩

theorem seals_opening : Seals "(" [.opening] :=
  fun _ _ h => scans_token (n := 0) rfl rfl h

theorem seals_minus : Seals "-" [.minus] :=
  fun _ _ h => scans_token (n := 0) rfl rfl h

theorem isName_text (k : Keyword) : isName k.text := by
  cases k <;> decide +kernel

/-- Some keywords, each with a blank behind it. -/
def keywordText (ks : List Keyword) : String :=
  match ks with
  | [] => ""
  | k :: ks => k.text ++ " " ++ keywordText ks

theorem keywordText_append (ks ls : List Keyword) :
    keywordText (ks ++ ls) = keywordText ks ++ keywordText ls := by
  induction ks with
  | nil => exact (String.empty_append).symm
  | cons k ks ih =>
      rw [List.cons_append, keywordText, keywordText, ih]
      simp only [String.append_assoc]

theorem seals_keywords (ks : List Keyword) : Seals (keywordText ks) (ks.map Keyword.token) := by
  induction ks with
  | nil => exact seals_empty
  | cons k ks ih => exact ((spells_word (isName_text k)).append separates_blank).append ih

theorem separates_keywords (ks : List Keyword) :
    Separates (" " ++ keywordText ks) (ks.map Keyword.token) :=
  separates_blank.append (seals_keywords ks)

/-- Two texts with a token between them. -/
theorem Spells.joined (h : Spells s ts) (hsep : Separates sep vs) (h' : Spells u us) :
    Spells (s ++ sep ++ u) (ts ++ (vs ++ us)) := by
  have hspells := (h.append hsep).append_spells h'
  rwa [List.append_assoc] at hspells

theorem Spells.joined_right (h : Spells s ts) (hsep : Separates sep vs) (h' : Spells u us) :
    Spells (s ++ (sep ++ u)) (ts ++ (vs ++ us)) :=
  String.append_assoc ▸ h.joined hsep h'

theorem Spells.enclosed (h : Spells s ts) :
    Spells ("(" ++ s ++ ")") (.opening :: (ts ++ [.closing])) := by
  rw [String.append_assoc]
  exact seals_opening.append_spells (h.append separates_closing).spells

theorem Spells.called (hw : isName w) (h : Spells s ts) :
    Spells (w ++ "(" ++ s ++ ")") (.word w :: .opening :: (ts ++ [.closing])) := by
  rw [String.append_assoc]
  exact (seals_word_opening hw).append_spells (h.append separates_closing).spells

end Texts

/-! ## Lists of phrases -/

/-- The phrases of a list are printed as their tokens. -/
def Printed (ps : List (Phrase × List Token)) : Prop := ∀ p ∈ ps, Spells p.1.render p.2

theorem pieces_eq_map (ts : List Phrase) : pieces ts = ts.map piece := by
  induction ts with
  | nil => rfl
  | cons t ts ih => rw [pieces, ih, List.map_cons]

theorem sequence_pieces (sep : String) (ts : List Phrase) :
    Rendering.sequence sep (pieces ts) = sep.intercalate (ts.map Phrase.render) := by
  rw [Rendering.sequence, pieces_eq_map, List.map_map]
  rfl

theorem spells_sequence {sep : String} {vs : List Token} (hsep : Separates sep vs)
    {p : Phrase × List Token} {ps : List (Phrase × List Token)} (h : Printed (p :: ps)) :
    Spells (Rendering.sequence sep (pieces (p.1 :: ps.map Prod.fst)))
      (p.2 ++ (ps.map fun q => vs ++ q.2).flatten) := by
  rw [sequence_pieces]
  induction ps generalizing p with
  | nil => simpa using h p (by simp)
  | cons q ps ih =>
      have hrest := ih fun r hr => h r (List.mem_cons_of_mem p hr)
      have htokens := (h p (by simp)).joined hsep hrest
      simpa only [List.map_cons, String.intercalate_cons_cons, List.flatten_cons,
        List.append_assoc] using htokens

theorem spells_separated {sep : String} {token : Token} (hsep : Separates sep [token])
    {p : Phrase × List Token} {ps : List (Phrase × List Token)} (h : Printed (p :: ps)) :
    Spells (Rendering.sequence sep (pieces (p.1 :: ps.map Prod.fst)))
      (Reader.separatedBy token p.2 (ps.map Prod.snd)) := by
  have hspells := spells_sequence hsep h
  rwa [Reader.separatedBy, List.map_map]

end Query

namespace Query.Grammar

open Reader

/-- The text has tokens that recite the phrase. -/
def Legible (c : Category) (s : String) (t : Phrase) : Prop := ∃ ts, Spells s ts ∧ Recited c ts t

/-- The precedence that phrases of the category have at least. -/
def Category.least : Category → Nat
  | .reference | .primary | .subselect => 8
  | .signed => 7
  | .product => 6
  | .sum => 5
  | .predicate => 4
  | .simple | .factor => 3
  | .term => 2
  | .condition => 1
  | _ => 0

/-- The negation of the phrase is legible where it has a text of its own. -/
def NegationLegible (t : Phrase) : Prop :=
  ∀ s ∈ (piece t).negated, ∀ span, Legible .simple s (.node .not [t] span)

/-- What is known of the text of a phrase from its category. -/
structure Prints (c : Category) (t : Phrase) : Prop where
  legible : Legible c t.render t
  least : c.least ≤ t.label.precedence
  negation : NegationLegible t
  predicate : c = .predicate → isPredicate t.label = true

variable {c d : Category} {t u v : Phrase} {s : Source.Span}

theorem negated_eq_none (h : isPredicate t.label = false) : (piece t).negated = none := by
  cases t with
  | node l ts s => exact if_neg (by rw [← Bool.not_eq_true] at h; exact h)

theorem negationLegible_of_not_predicate (h : isPredicate t.label = false) :
    NegationLegible t := by
  intro text htext
  rw [negated_eq_none h] at htext
  cases htext

/-- A phrase that is no test prints once its tokens recite it. -/
theorem prints_of_legible (hc : c ≠ .predicate) (h : Legible c t.render t)
    (hleast : c.least ≤ t.label.precedence) (hlabel : isPredicate t.label = false) : Prints c t :=
  ⟨h, hleast, negationLegible_of_not_predicate hlabel, fun hpredicate => absurd hpredicate hc⟩

/-- A looser category. -/
theorem Prints.loosen (h : Prints c t) (hd : d ≠ .predicate) (hle : d.least ≤ c.least)
    (hrecited : ∀ ts, Recited c ts t → Recited d ts t) : Prints d t := by
  obtain ⟨ts, hspells, hts⟩ := h.legible
  exact ⟨⟨ts, hspells, hrecited ts hts⟩, Nat.le_trans hle h.least, h.negation,
    fun hpredicate => absurd hpredicate hd⟩

theorem Prints.operand_eq (h : Prints c t) {least : Nat} (hle : least ≤ c.least) :
    operand least (piece t) = t.render := by
  have hprecedence : least ≤ (piece t).precedence := by
    cases t with
    | node l ts s => exact Nat.le_trans hle h.least
  exact if_neg (Nat.not_lt.mpr hprecedence)

/-- Printed phrases of a category with their tokens. -/
theorem exists_tokens {ts : List Phrase} (h : ∀ t ∈ ts, Prints c t) :
    ∃ ps : List (Phrase × List Token), ps.map Prod.fst = ts ∧ AllRecited c ps ∧ Printed ps := by
  induction ts with
  | nil => exact ⟨[], rfl, by simp [AllRecited], by simp [Printed]⟩
  | cons t ts ih =>
      obtain ⟨ps, hps, hrecited, hspells⟩ := ih fun u hu => h u (List.mem_cons_of_mem t hu)
      obtain ⟨us, hus, ht⟩ := (h t (by simp)).legible
      exact ⟨(t, us) :: ps, by rw [List.map_cons, hps], List.forall_mem_cons.mpr ⟨ht, hrecited⟩,
        List.forall_mem_cons.mpr ⟨hus, hspells⟩⟩

theorem exists_tokens_cons {ts : List Phrase} (h : ∀ u ∈ t :: ts, Prints c u) :
    ∃ (p : Phrase × List Token) (ps : List (Phrase × List Token)), p.1 = t ∧
      ps.map Prod.fst = ts ∧ AllRecited c (p :: ps) ∧ Printed (p :: ps) := by
  obtain ⟨ps, hps, hrecited, hspells⟩ := exists_tokens h
  cases ps with
  | nil => cases hps
  | cons p ps =>
      obtain ⟨rfl, rfl⟩ := List.cons.inj hps
      exact ⟨p, ps, rfl, rfl, hrecited, hspells⟩

/-! ## Names and paths -/

theorem prints_name {x : String} (hx : isVariable x) (s : Source.Span) :
    Prints .reference (.node (.identifier x) [] s) :=
  prints_of_legible (by simp) ⟨_, spells_word (isName_of_isVariable hx), recited_name hx s⟩
    (Nat.le_refl 8) rfl

theorem render_segments {segments : List Phrase} {ws : List String}
    (h : AreSegments segments ws) : segments.map Phrase.render = ws := by
  induction h with
  | nil => rfl
  | cons _ _ _ ih => rw [List.map_cons, ih]; rfl

theorem spells_pointed {x : String} {ws : List String} (hx : isName x) (hws : ∀ w ∈ ws, isName w) :
    Spells (".".intercalate (x :: ws)) (.word x :: pointed ws) := by
  induction ws generalizing x with
  | nil => exact spells_word hx
  | cons w ws ih =>
      rw [String.intercalate_cons_cons]
      exact (seals_word_dot hx).append_spells
        (ih (hws w (by simp)) fun v hv => hws v (List.mem_cons_of_mem w hv))

theorem prints_path {x w : String} {ws : List String} {segments : List Phrase}
    (hx : isVariable x) (h : AreSegments segments (w :: ws)) (hnames : ∀ v ∈ w :: ws, isName v)
    (r s : Source.Span) :
    Prints .reference (.node .path (.node (.identifier x) [] r :: segments) s) := by
  refine prints_of_legible (by simp) ⟨_, ?_, recited_path hx h r s⟩ (Nat.le_refl 8) rfl
  have htext : (Phrase.node .path (.node (.identifier x) [] r :: segments) s).render =
      ".".intercalate (x :: w :: ws) := by
    rw [← render_segments h]
    exact sequence_pieces "." (.node (.identifier x) [] r :: segments)
  rw [htext]
  exact spells_pointed (isName_of_isVariable hx) hnames

/-! ## Operands -/

theorem prints_literal {token : Token} {l : Label} (hlegal : token.Legal)
    (hl : literalLabel? token = some l) (s : Source.Span) : Prints .primary (.node l [] s) := by
  refine prints_of_legible (by simp) ⟨_, ?_, recited_literal hl s⟩ ?_ ?_
  · have htext : (Phrase.node l [] s).render = token.text := by
      cases token <;> cases hl <;> rfl
    rw [htext]
    exact hlegal.spells
  · cases token <;> cases hl <;> exact Nat.le_refl 8
  · cases token <;> cases hl <;> rfl

theorem prints_keyword {k : Keyword} {l : Label} (hl : keywordLabel? k = some l)
    (s : Source.Span) : Prints .primary (.node l [] s) := by
  refine prints_of_legible (by simp) ⟨_, ?_, recited_keyword hl s⟩ ?_ ?_
  · have htext : (Phrase.node l [] s).render = k.text := by
      cases k <;> first
        | exact absurd hl.symm (Option.some_ne_none l)
        | cases hl; rfl
    rw [htext]
    exact spells_word (isName_text k)
  all_goals
    cases k <;> first
      | exact absurd hl.symm (Option.some_ne_none l)
      | cases hl; first | exact Nat.le_refl 8 | rfl

theorem prints_brackets (h : Prints .condition t) (s : Source.Span) :
    Prints .primary (.node .brackets [t] s) := by
  obtain ⟨ts, hspells, hts⟩ := h.legible
  exact prints_of_legible (by simp) ⟨_, hspells.enclosed, recited_brackets hts s⟩
    (Nat.le_refl 8) rfl

/-- How a function is written. -/
theorem render_call {name : String} {f : Signature} (h : signature? name = some f)
    (ts : List Phrase) (s : Source.Span) :
    (Phrase.node f.label ts s).render =
      name ++ "(" ++ Rendering.sequence ", " (pieces ts) ++ ")" := by
  unfold signature? at h
  split at h <;> cases h <;> rfl

theorem written_of_signature? {name : String} {f : Signature} (h : signature? name = some f) :
    isName name ∧ f.label.precedence = 8 ∧ isPredicate f.label = false ∧ f.admits 0 = false := by
  unfold signature? at h
  split at h <;> cases h <;> exact ⟨by decide +kernel, rfl, rfl, rfl⟩

theorem prints_call {name : String} {f : Signature} {ts : List Phrase}
    (hf : signature? name = some f) (hadmits : f.admits ts.length) (h : ∀ t ∈ ts, Prints .sum t)
    (s : Source.Span) : Prints .primary (.node f.label ts s) := by
  obtain ⟨hname, hprecedence, hlabel, hzero⟩ := written_of_signature? hf
  cases ts with
  | nil => exact absurd hadmits (by rw [List.length_nil, hzero]; exact Bool.false_ne_true)
  | cons t ts =>
      obtain ⟨p, ps, rfl, rfl, hrecited, hspells⟩ := exists_tokens_cons h
      have hcall := recited_call hf (by simpa using hadmits) hrecited s
      refine prints_of_legible (by simp) ⟨_, ?_, hcall⟩ (Nat.le_of_eq hprecedence.symm) hlabel
      rw [render_call hf]
      exact (spells_separated separates_comma hspells).called hname

theorem prints_aggregate (f : Aggregate) (distinct : Bool) (h : Prints .sum t) (s : Source.Span) :
    Prints .primary (.node (.aggregate f distinct) [t] s) := by
  obtain ⟨ts, hspells, hts⟩ := h.legible
  refine prints_of_legible (by simp) ⟨_, ?_, recited_aggregate f distinct hts s⟩ (Nat.le_refl 8) rfl
  have hname : isName f.text := by cases f <;> decide +kernel
  have hbody : Spells ((if distinct then "DISTINCT " else "") ++ t.render)
      (optionally distinct .distinct ++ ts) := by
    cases distinct with
    | true => exact (seals_keywords [.distinct]).append_spells hspells
    | false => exact seals_empty.append_spells hspells
  have hcall := hbody.called hname
  rwa [← String.append_assoc, List.append_assoc] at hcall

theorem prints_negative (h : Prints .signed t) (s : Source.Span) :
    Prints .signed (.node .negative [t] s) := by
  obtain ⟨ts, hspells, hts⟩ := h.legible
  refine prints_of_legible (by simp) ⟨_, ?_, recited_negative hts s⟩ (Nat.le_refl 7) rfl
  have htext : (Phrase.node .negative [t] s).render = "-" ++ operand 7 (piece t) := rfl
  rw [htext, h.operand_eq (Nat.le_refl 7)]
  exact seals_minus.append_spells hspells

/-- The token of an operator. -/
def operatorToken : ArithmeticOperator → Token
  | .add => .plus
  | .subtract => .minus
  | .multiply => .star
  | .divide => .slash

theorem separates_arithmetic (op : ArithmeticOperator) :
    Separates (arithmeticSign op) [operatorToken op] := by
  have hlegal : (operatorToken op).Legal := by cases op <;> trivial
  have hsign : arithmeticSign op = " " ++ ((operatorToken op).text ++ " ") := by cases op <;> rfl
  exact hsign ▸ hlegal.separates

theorem prints_multiply {op : ArithmeticOperator} (hop : multiplies op = true)
    (ht : Prints .product t) (hu : Prints .signed u) (s : Source.Span) :
    Prints .product (.node (.arithmetic op) [t, u] s) := by
  obtain ⟨ts, hts, htr⟩ := ht.legible
  obtain ⟨us, hus, hur⟩ := hu.legible
  have htoken : productOperator? (operatorToken op) = some op := by
    cases op <;> first | rfl | cases hop
  have hlevel : Label.precedence (.arithmetic op) = 6 := by
    cases op <;> first | rfl | cases hop
  refine prints_of_legible (by simp) ⟨_, ?_, recited_multiply htoken htr hur s⟩
    (Nat.le_of_eq hlevel.symm) rfl
  have htext : (Phrase.node (.arithmetic op) [t, u] s).render =
      operand (Label.precedence (.arithmetic op)) (piece t) ++ arithmeticSign op ++
        operand (Label.precedence (.arithmetic op) + 1) (piece u) := rfl
  rw [htext, hlevel, ht.operand_eq (Nat.le_refl 6), hu.operand_eq (Nat.le_refl 7)]
  exact hts.joined (separates_arithmetic op) hus

theorem prints_add {op : ArithmeticOperator} (hop : multiplies op = false)
    (ht : Prints .sum t) (hu : Prints .product u) (s : Source.Span) :
    Prints .sum (.node (.arithmetic op) [t, u] s) := by
  obtain ⟨ts, hts, htr⟩ := ht.legible
  obtain ⟨us, hus, hur⟩ := hu.legible
  have htoken : sumOperator? (operatorToken op) = some op := by
    cases op <;> first | rfl | cases hop
  have hlevel : Label.precedence (.arithmetic op) = 5 := by
    cases op <;> first | rfl | cases hop
  refine prints_of_legible (by simp) ⟨_, ?_, recited_add htoken htr hur s⟩
    (Nat.le_of_eq hlevel.symm) rfl
  have htext : (Phrase.node (.arithmetic op) [t, u] s).render =
      operand (Label.precedence (.arithmetic op)) (piece t) ++ arithmeticSign op ++
        operand (Label.precedence (.arithmetic op) + 1) (piece u) := rfl
  rw [htext, hlevel, ht.operand_eq (Nat.le_refl 5), hu.operand_eq (Nat.le_refl 6)]
  exact hts.joined (separates_arithmetic op) hus

/-! ## Trimming -/

/-- The text begins with a word that trimming takes for its side. -/
def beginsWithSide (text : String) : Bool :=
  (scan text).toOption.any fun lexemes => lexemes.head?.any fun lexeme => isSide lexeme.token

/-- Printed without a side, the phrase is read with one. -/
def isMisread : Phrase → Bool
  | .node (.trim none) (t :: _) _ => beginsWithSide t.render
  | _ => false

theorem ends_isSide {text : String} {ts : List Token} (h : Spells text ts)
    (hside : beginsWithSide text = false) : Ends isSide ts := by
  obtain ⟨lexemes, hscan, rfl⟩ := h.scan
  intro token htoken
  rw [List.head?_map, Option.mem_def, Option.map_eq_some_iff] at htoken
  obtain ⟨lexeme, hlexeme, rfl⟩ := htoken
  simpa [beginsWithSide, hscan, Except.toOption, hlexeme] using hside

theorem isName_trim : isName "TRIM" := by decide +kernel

/-- The keyword of a side that may be left out. -/
def sideKeywords (side : Option TrimSide) : List Keyword := (side.map sideKeyword).toList

theorem sideTokens_eq (side : Option TrimSide) :
    sideTokens side = (sideKeywords side).map Keyword.token := by
  cases side <;> rfl

theorem keywordText_side (side : TrimSide) :
    keywordText [sideKeyword side] = side.text ++ " " := by
  cases side <;> rfl

theorem render_trim (t : Phrase) (s : Source.Span) :
    (Phrase.node (.trim none) [t] s).render = "TRIM" ++ "(" ++ t.render ++ ")" := by
  have htext : (Phrase.node (.trim none) [t] s).render =
      "TRIM(" ++ "" ++ "" ++ "" ++ t.render ++ ")" := rfl
  rw [htext]
  rfl

theorem render_trimSide (side : TrimSide) (t : Phrase) (s : Source.Span) :
    (Phrase.node (.trim (some side)) [t] s).render =
      "TRIM" ++ "(" ++ (keywordText [sideKeyword side] ++ (keywordText [.from_] ++ t.render)) ++
        ")" := by
  have htext : (Phrase.node (.trim (some side)) [t] s).render =
      "TRIM(" ++ (side.text ++ " ") ++ "" ++ "FROM " ++ t.render ++ ")" := rfl
  have hopening : "TRIM(" = "TRIM" ++ "(" := rfl
  have hfrom : keywordText [.from_] = "FROM " := rfl
  rw [htext, hopening, hfrom, keywordText_side]
  simp only [String.append_assoc, String.append_empty]

theorem render_trimOff (side : Option TrimSide) (t u : Phrase) (s : Source.Span) :
    (Phrase.node (.trim side) [t, u] s).render = "TRIM" ++ "(" ++
      (keywordText (sideKeywords side) ++
        (t.render ++ (" " ++ keywordText [.from_]) ++ u.render)) ++ ")" := by
  have htext : (Phrase.node (.trim side) [t, u] s).render = "TRIM(" ++
      keywordText (sideKeywords side) ++ (t.render ++ " ") ++ "FROM " ++ u.render ++ ")" := by
    cases side with
    | none => rfl
    | some side =>
        rw [sideKeywords, Option.map_some, Option.toList_some, keywordText_side]
        rfl
  have hopening : "TRIM(" = "TRIM" ++ "(" := rfl
  have hfrom : " " ++ keywordText [.from_] = " " ++ "FROM " := rfl
  rw [htext, hopening, hfrom]
  simp only [String.append_assoc]

theorem prints_trim {side : Option TrimSide} (h : Prints .sum t) (s : Source.Span)
    (hside : isMisread (.node (.trim side) [t] s) = false) :
    Prints .primary (.node (.trim side) [t] s) := by
  obtain ⟨ts, hspells, hts⟩ := h.legible
  cases side with
  | none =>
      refine prints_of_legible (by simp) ⟨_, ?_, recited_trim hts (ends_isSide hspells hside) s⟩
        (Nat.le_refl 8) rfl
      rw [render_trim]
      exact hspells.called isName_trim
  | some side =>
      refine prints_of_legible (by simp) ⟨_, ?_, recited_trimSide side hts s⟩ (Nat.le_refl 8) rfl
      rw [render_trimSide]
      have hfrom := (seals_keywords [.from_]).append_spells hspells
      exact ((seals_keywords [sideKeyword side]).append_spells hfrom).called isName_trim

theorem prints_trimOff {side : Option TrimSide} (ht : Prints .sum t) (hu : Prints .sum u)
    (s : Source.Span) (hside : isMisread (.node (.trim side) [t, u] s) = false) :
    Prints .primary (.node (.trim side) [t, u] s) := by
  obtain ⟨ts, hts, htr⟩ := ht.legible
  obtain ⟨us, hus, hur⟩ := hu.legible
  refine prints_of_legible (by simp) ⟨_, ?_, recited_trimOff htr hur (fun hnone => ?_) s⟩
    (Nat.le_refl 8) rfl
  · rw [render_trimOff]
    have hbody := hts.joined (separates_keywords [.from_]) hus
    have hcall := ((seals_keywords (sideKeywords side)).append_spells hbody).called isName_trim
    rwa [← sideTokens_eq, List.append_assoc, List.append_assoc] at hcall
  · subst hnone
    exact ends_isSide hts hside

/-! ## Tests -/

/-- What stands in front of the keyword of a test. -/
def negationWord (b : Bool) : String := if b then "NOT " else ""

/-- The keywords of a test that may be negated. -/
def testKeywords (b : Bool) (ks : List Keyword) : List Keyword := if b then .not :: ks else ks

theorem testKeywords_tokens (b : Bool) (ks : List Keyword) :
    (testKeywords b ks).map Keyword.token = optionally b .not ++ ks.map Keyword.token := by
  cases b <;> rfl

/-- A test prints if both of its forms do. -/
theorem prints_test {l : Label} {ts : List Phrase} (hl : isPredicate l = true)
    (h : ∀ b s', Legible .simple (Rendering.predicate l (negationWord b) (pieces ts))
      (negatedIf b (.node l ts s) s')) : Prints .predicate (.node l ts s) := by
  refine ⟨?_, ?_, fun text htext span => ?_, fun _ => hl⟩
  · have htext : (Phrase.node l ts s).render = Rendering.predicate l "" (pieces ts) := by
      cases l <;> first | rfl | cases hl
    rw [htext]
    exact h false s
  · cases l <;> first | exact Nat.le_refl 4 | cases hl
  · have hnegated : (piece (.node l ts s)).negated =
        some (Rendering.predicate l "NOT " (pieces ts)) := if_pos hl
    rw [hnegated] at htext
    cases htext
    exact h true span

/-- A test is written as its operand, its keywords and what stands behind them. -/
theorem predicate_eq {l : Label} {b : Bool} {ks : List Keyword} {tail : String} {ts : List Phrase}
    (hv : Prints .sum v)
    (htail : predicateTail l (negationWord b) (pieces ts) =
      " " ++ keywordText (testKeywords b ks) ++ tail) :
    Rendering.predicate l (negationWord b) (pieces (v :: ts)) =
      v.render ++ (" " ++ keywordText (testKeywords b ks) ++ tail) := by
  rw [pieces, Rendering.predicate, hv.operand_eq (Nat.le_refl 5), htail]

theorem spells_test {vs rest : List Token} {tail : String} (b : Bool) (ks : List Keyword)
    (hv : Spells v.render vs) (htail : Spells tail rest) :
    Spells (v.render ++ (" " ++ keywordText (testKeywords b ks) ++ tail))
      (vs ++ (optionally b .not ++ (ks.map Keyword.token ++ rest))) := by
  have hspells := hv.joined_right (separates_keywords (testKeywords b ks)) htail
  rwa [testKeywords_tokens, List.append_assoc] at hspells

theorem prints_between {l : Phrase} (hv : Prints .sum v) (hl : Prints .sum l) (hu : Prints .sum u)
    (s : Source.Span) : Prints .predicate (.node .between [v, l, u] s) := by
  refine prints_test rfl fun b s' => ?_
  obtain ⟨vs, hvs, hvr⟩ := hv.legible
  obtain ⟨ls, hls, hlr⟩ := hl.legible
  obtain ⟨us, hus, hur⟩ := hu.legible
  refine ⟨_, ?_, recited_between b hvr s s' hlr hur⟩
  have htail : predicateTail .between (negationWord b) (pieces [l, u]) =
      " " ++ keywordText (testKeywords b [.between]) ++
        (l.render ++ (" " ++ keywordText [.and]) ++ u.render) := by
    rw [← hl.operand_eq (Nat.le_refl 5), ← hu.operand_eq (Nat.le_refl 5)]
    cases b <;> rfl
  rw [predicate_eq hv htail]
  exact spells_test b [.between] hvs (hls.joined (separates_keywords [.and]) hus)

theorem prints_isIn {ts : List Phrase} (hv : Prints .sum v) (h : ∀ u ∈ t :: ts, Prints .sum u)
    (hone : ts = [] → t.label ≠ .subselect) (s : Source.Span) :
    Prints .predicate (.node .isIn (v :: t :: ts) s) := by
  refine prints_test rfl fun b s' => ?_
  obtain ⟨vs, hvs, hvr⟩ := hv.legible
  obtain ⟨p, ps, rfl, rfl, hrecited, hspells⟩ := exists_tokens_cons h
  refine ⟨_, ?_, recited_isIn b hvr s s' hrecited⟩
  have hitems : Rendering.items (pieces (p.1 :: ps.map Prod.fst)) =
      "(" ++ Rendering.sequence ", " (pieces (p.1 :: ps.map Prod.fst)) ++ ")" := by
    cases ps with
    | nil =>
        have hlabel : (piece p.1).label ≠ .subselect := by
          have hne := hone rfl
          cases hp : p.1 with
          | node l cs s => rwa [hp] at hne
        exact if_neg hlabel
    | cons q ps => rfl
  have htail : predicateTail .isIn (negationWord b) (pieces (p.1 :: ps.map Prod.fst)) =
      " " ++ keywordText (testKeywords b [.in_]) ++
        ("(" ++ Rendering.sequence ", " (pieces (p.1 :: ps.map Prod.fst)) ++ ")") := by
    rw [← hitems]
    cases b <;> rfl
  rw [predicate_eq hv htail]
  exact spells_test b [.in_] hvs (spells_separated separates_comma hspells).enclosed

theorem prints_isInSubselect (hv : Prints .sum v) (ht : Prints .subselect t)
    (hlabel : t.label = .subselect) (s : Source.Span) :
    Prints .predicate (.node .isIn [v, t] s) := by
  refine prints_test rfl fun b s' => ?_
  obtain ⟨vs, hvs, hvr⟩ := hv.legible
  obtain ⟨ts, hts, htr⟩ := ht.legible
  refine ⟨_, ?_, recited_isIn_subselect b hvr s s' htr⟩
  have hitems : Rendering.items (pieces [t]) = t.render := by
    cases t with
    | node l cs s => exact if_pos hlabel
  have htail : predicateTail .isIn (negationWord b) (pieces [t]) =
      " " ++ keywordText (testKeywords b [.in_]) ++ t.render := by
    rw [← hitems]
    cases b <;> rfl
  rw [predicate_eq hv htail]
  exact spells_test b [.in_] hvs hts

theorem prints_like (hv : Prints .sum v) (hu : Prints .sum u) (s : Source.Span) :
    Prints .predicate (.node .like [v, u] s) := by
  refine prints_test rfl fun b s' => ?_
  obtain ⟨vs, hvs, hvr⟩ := hv.legible
  obtain ⟨us, hus, hur⟩ := hu.legible
  refine ⟨_, ?_, recited_like b hvr s s' hur⟩
  have htail : predicateTail .like (negationWord b) (pieces [u]) =
      " " ++ keywordText (testKeywords b [.like]) ++ u.render := by
    rw [← hu.operand_eq (Nat.le_refl 5), ← String.append_empty (s := operand 5 (piece u))]
    cases b <;> rfl
  rw [predicate_eq hv htail]
  exact spells_test b [.like] hvs hus

theorem prints_likeEscape {e : Phrase} (hv : Prints .sum v) (hu : Prints .sum u)
    (he : Prints .primary e) (s : Source.Span) : Prints .predicate (.node .like [v, u, e] s) := by
  refine prints_test rfl fun b s' => ?_
  obtain ⟨vs, hvs, hvr⟩ := hv.legible
  obtain ⟨us, hus, hur⟩ := hu.legible
  obtain ⟨es, hes, her⟩ := he.legible
  refine ⟨_, ?_, recited_likeEscape b hvr s s' hur her⟩
  have htail : predicateTail .like (negationWord b) (pieces [u, e]) =
      " " ++ keywordText (testKeywords b [.like]) ++
        (u.render ++ ((" " ++ keywordText [.escape]) ++ e.render)) := by
    rw [← hu.operand_eq (Nat.le_refl 5)]
    cases b <;> rfl
  rw [predicate_eq hv htail]
  exact spells_test b [.like] hvs (hus.joined_right (separates_keywords [.escape]) hes)

theorem prints_memberOf (hv : Prints .sum v) (hu : Prints .primary u) (s : Source.Span) :
    Prints .predicate (.node .memberOf [v, u] s) := by
  refine prints_test rfl fun b s' => ?_
  obtain ⟨vs, hvs, hvr⟩ := hv.legible
  obtain ⟨us, hus, hur⟩ := hu.legible
  refine ⟨_, ?_, recited_memberOf b hvr s s' hur⟩
  have htail : predicateTail .memberOf (negationWord b) (pieces [u]) =
      " " ++ keywordText (testKeywords b [.member, .of_]) ++ u.render := by
    cases b <;> rfl
  rw [predicate_eq hv htail]
  exact spells_test b [.member, .of_] hvs hus

theorem prints_stateTest {k : Keyword} {l : Label}
    (hlabel : (k = .null ∧ l = .isNull) ∨ (k = .empty ∧ l = .isEmpty)) (hv : Prints .sum v)
    (s : Source.Span) : Prints .predicate (.node l [v] s) := by
  have hl : isPredicate l = true := by
    rcases hlabel with ⟨-, rfl⟩ | ⟨-, rfl⟩ <;> rfl
  refine prints_test hl fun b s' => ?_
  obtain ⟨vs, hvs, hvr⟩ := hv.legible
  refine ⟨_, ?_, recited_stateTest b hvr s s' hlabel⟩
  have htext : Rendering.predicate l (negationWord b) (pieces [v]) =
      v.render ++ (" " ++ keywordText (.is :: testKeywords b []) ++ k.text) := by
    rw [← hv.operand_eq (Nat.le_refl 5)]
    rcases hlabel with ⟨rfl, rfl⟩ | ⟨rfl, rfl⟩ <;> cases b <;> rfl
  rw [htext]
  have hspells := hvs.joined_right (separates_keywords (.is :: testKeywords b []))
    (spells_word (isName_text k))
  rwa [List.map_cons, testKeywords_tokens, List.map_nil, List.append_nil] at hspells

/-! ## Conditions -/

/-- The token of a comparison. -/
def comparisonToken : Comparison → Token
  | .equal => .equal
  | .notEqual => .notEqual
  | .less => .less
  | .lessOrEqual => .lessOrEqual
  | .greater => .greater
  | .greaterOrEqual => .greaterOrEqual

theorem separates_comparison (op : Comparison) :
    Separates (comparisonSign op) [comparisonToken op] := by
  have hlegal : (comparisonToken op).Legal := by cases op <;> trivial
  have hsign : comparisonSign op = " " ++ ((comparisonToken op).text ++ " ") := by
    cases op <;> rfl
  exact hsign ▸ hlegal.separates

theorem prints_compare (op : Comparison) (ht : Prints .sum t) (hu : Prints .sum u)
    (s : Source.Span) : Prints .simple (.node (.compare op) [t, u] s) := by
  obtain ⟨ts, hts, htr⟩ := ht.legible
  obtain ⟨us, hus, hur⟩ := hu.legible
  have htoken : comparison? (comparisonToken op) = some op := by cases op <;> rfl
  refine prints_of_legible (by simp) ⟨_, ?_, recited_compare htoken htr hur s⟩
    (by decide : 3 ≤ 4) rfl
  have htext : (Phrase.node (.compare op) [t, u] s).render =
      operand 4 (piece t) ++ comparisonSign op ++ operand 5 (piece u) := rfl
  rw [htext, ht.operand_eq (by decide : 4 ≤ 5), hu.operand_eq (Nat.le_refl 5)]
  exact hts.joined (separates_comparison op) hus

theorem prints_exist (h : Prints .subselect t) (s : Source.Span) :
    Prints .simple (.node .exist [t] s) := by
  obtain ⟨ts, hspells, hts⟩ := h.legible
  exact prints_of_legible (by simp) ⟨_, (seals_keywords [.exists_]).append_spells hspells,
    recited_exist hts s⟩ (by decide : 3 ≤ 4) rfl

/-- The negation of a test is written inside of it. -/
theorem prints_negated (h : Prints .predicate t) (s : Source.Span) :
    Prints .simple (.node .not [t] s) := by
  have hnegated : ∃ text, (piece t).negated = some text := by
    cases t with
    | node l ts s => exact ⟨_, if_pos (h.predicate rfl)⟩
  obtain ⟨text, htext⟩ := hnegated
  have hrender : (Phrase.node .not [t] s).render = text := by
    have hgetD : (Phrase.node .not [t] s).render =
      (piece t).negated.getD ("NOT " ++ operand 3 (piece t)) := rfl
    rw [hgetD, htext, Option.getD_some]
  exact prints_of_legible (by simp) (hrender ▸ h.negation text htext s) (Nat.le_refl 3) rfl

theorem prints_not (h : Prints .factor t) (s : Source.Span) :
    Prints .factor (.node .not [t] s) := by
  refine prints_of_legible (by simp) ?_ (Nat.le_refl 3) rfl
  have hrender : (Phrase.node .not [t] s).render =
    (piece t).negated.getD ("NOT " ++ operand 3 (piece t)) := rfl
  cases hnegated : (piece t).negated with
  | none =>
      obtain ⟨ts, hspells, hts⟩ := h.legible
      rw [hrender, hnegated, Option.getD_none, h.operand_eq (Nat.le_refl 3)]
      exact ⟨_, (seals_keywords [.not]).append_spells hspells, recited_not hts s⟩
  | some text =>
      obtain ⟨ts, hspells, hts⟩ := h.negation text hnegated s
      rw [hrender, hnegated, Option.getD_some]
      exact ⟨ts, hspells, recited_factor_of_simple hts⟩

theorem nary_pieces {least : Nat} {sign : String} {ts : List Phrase} (h : ∀ t ∈ ts, Prints c t)
    (hle : least ≤ c.least) :
    nary least sign (pieces ts) = Rendering.sequence sign (pieces ts) := by
  have hoperands : (pieces ts).map (operand least) = (pieces ts).map Piece.text := by
    rw [pieces_eq_map]
    simp only [List.map_map]
    exact List.map_congr_left fun t ht => (h t ht).operand_eq hle
  rw [nary, Rendering.sequence, hoperands]

theorem prints_and {ts : List Phrase} (h : ∀ v ∈ t :: u :: ts, Prints .factor v)
    (s : Source.Span) : Prints .term (.node .and (t :: u :: ts) s) := by
  have htext : (Phrase.node .and (t :: u :: ts) s).render =
    nary 2 " AND " (pieces (t :: u :: ts)) := rfl
  obtain ⟨p, ps, rfl, hps, hrecited, hspells⟩ := exists_tokens_cons h
  cases ps with
  | nil => cases hps
  | cons q ps =>
      obtain ⟨rfl, rfl⟩ := List.cons.inj hps
      refine prints_of_legible (by simp) ⟨_, ?_, recited_and hrecited s⟩ (Nat.le_refl 2) rfl
      rw [htext, nary_pieces h (by decide : 2 ≤ 3)]
      have hsep : Separates " AND " [Keyword.and.token] := separates_keywords [.and]
      have htokens := spells_separated hsep hspells
      exact htokens

theorem prints_or {ts : List Phrase} (h : ∀ v ∈ t :: u :: ts, Prints .term v)
    (s : Source.Span) : Prints .condition (.node .or (t :: u :: ts) s) := by
  have htext : (Phrase.node .or (t :: u :: ts) s).render =
    nary 1 " OR " (pieces (t :: u :: ts)) := rfl
  obtain ⟨p, ps, rfl, hps, hrecited, hspells⟩ := exists_tokens_cons h
  cases ps with
  | nil => cases hps
  | cons q ps =>
      obtain ⟨rfl, rfl⟩ := List.cons.inj hps
      refine prints_of_legible (by simp) ⟨_, ?_, recited_or hrecited s⟩ (Nat.le_refl 1) rfl
      rw [htext, nary_pieces h (by decide : 1 ≤ 2)]
      have hsep : Separates " OR " [Keyword.or.token] := separates_keywords [.or]
      have htokens := spells_separated hsep hspells
      exact htokens

end Query.Grammar

end RowGuard
