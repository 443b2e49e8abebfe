import RowGuard.Proofs.Rereading

/-!
# Tokens of phrases

Tokens recite a phrase of a category if the reader of the category reads them as
that phrase, wherever it has to stop behind them and whatever nesting it is
prepared for, as long as that is enough.  The tokens of a compound phrase are
those of its parts with marks and keywords around them, and each production of
the grammar keeps the property.
-/

namespace RowGuard

open Query (Aggregate ArithmeticOperator Comparison Ends Grammar.Inner Keyword Label Phrase Reader
  Starts Token TrimSide)
open Query.Phrase

namespace Query.Grammar

open Reader

/-- The tokens begin as phrases of the category do and are read as the phrase. -/
def Recited : Category → List Token → Phrase → Prop
  | .reference, ts, t => (∃ w rest, ts = .word w :: rest ∧ isVariable w ∧
        rest.head? ≠ some .opening) ∧
      ∀ us, Ends continuesPath us → Reads (Like t) pathExpression (ts ++ us) us
  | .primary, ts, t => Starts opensPrimary ts ∧ ∀ m us, ts.length ≤ m → Ends continuesPath us →
      Reads (Like t) (primary (depth m)) (ts ++ us) us
  | .signed, ts, t => Starts opensOperand ts ∧ ∀ m n us, ts.length ≤ m → ts.length ≤ n →
      Ends continuesPath us → Reads (Like t) (signedAtMost (depth m) n) (ts ++ us) us
  | .product, ts, t => Starts opensOperand ts ∧ ∀ m us, ts.length ≤ m → Ends continuesPath us →
      Resumes productOperator? (signed (depth m)) t ts us
  | .sum, ts, t => Starts opensOperand ts ∧ ∀ m us, ts.length ≤ m → Ends continuesProduct us →
      Resumes sumOperator? (product (depth m)) t ts us
  | .predicate, ts, t | .simple, ts, t => Starts opensSimple ts ∧ ∀ m us, ts.length ≤ m →
      Ends continuesSimple us → Reads (Like t) (simpleCondition (depth m)) (ts ++ us) us
  | .factor, ts, t => Starts opensCondition ts ∧ ∀ m n us, ts.length ≤ m → ts.length ≤ n →
      Ends continuesSimple us → Reads (Like t) (factorAtMost (depth m) n) (ts ++ us) us
  | .term, ts, t => Starts opensCondition ts ∧ ∀ m us, ts.length ≤ m → Ends continuesTerm us →
      Reads (Like t) (term (depth m)) (ts ++ us) us
  | .condition, ts, t => Starts opensCondition ts ∧ ∀ m us, ts.length ≤ m →
      Ends continuesCondition us → Reads (Like t) (condition (depth m)) (ts ++ us) us
  | .subselect, ts, t => ∃ rest, ts = .opening :: rest ∧ nextKeyword? rest = some .select ∧
      ∀ m start us, rest.length ≤ m →
        Reads (Like t) (subselect (sum (depth m)) (condition (depth m)) start) (rest ++ us) us
  | .selected, ts, t => Starts opensSelected ts ∧ ∀ m us, ts.length ≤ m → Ends continuesSum us →
      Reads (Like t) (selectItem (sum (depth m))) (ts ++ us) us
  | .selectClause, ts, t => (∃ rest, ts = Keyword.select.token :: rest) ∧ ∀ m us,
      ts.length ≤ m → Ends continuesList us →
      Reads (Like t) (selectClause (sum (depth m))) (ts ++ us) us
  | .join, ts, t => Starts opensJoin ts ∧ ∀ us, Ends continuesJoin us →
      Reads (fun j? => ∃ j, j? = some j ∧ Like t j) join? (ts ++ us) us
  | .fromItem, ts, t => ∀ us, Ends continuesItem us → Reads (Like t) fromItem (ts ++ us) us
  | .fromClause, ts, t => (∃ rest, ts = Keyword.from_.token :: rest) ∧ ∀ us,
      Ends continuesItems us → Reads (Like t) fromClause (ts ++ us) us
  | .whereClause, ts, t => (∃ rest, ts = Keyword.where_.token :: rest) ∧ ∀ m us,
      ts.length ≤ m → Ends continuesCondition us →
      Reads (fun as => bareAll as = bareAll [t]) (whereClause (condition (depth m))) (ts ++ us) us
  | .groupByClause, ts, t => (∃ rest, ts = Keyword.group.token :: rest) ∧ ∀ m us,
      ts.length ≤ m → Ends continuesList us →
      Reads (fun as => bareAll as = bareAll [t]) (groupByClause (sum (depth m))) (ts ++ us) us
  | .havingClause, ts, t => (∃ rest, ts = Keyword.having.token :: rest) ∧ ∀ m us,
      ts.length ≤ m → Ends continuesCondition us →
      Reads (fun as => bareAll as = bareAll [t]) (havingClause (condition (depth m))) (ts ++ us) us
  | .orderByItem, ts, t => Starts opensOperand ts ∧ ∀ m us, ts.length ≤ m →
      Ends continuesOrder us → Reads (Like t) (orderByItem (sum (depth m))) (ts ++ us) us
  | .orderByClause, ts, t => (∃ rest, ts = Keyword.order.token :: rest) ∧ ∀ m us,
      ts.length ≤ m → Ends continuesOrders us →
      Reads (fun as => bareAll as = bareAll [t]) (orderByClause (sum (depth m))) (ts ++ us) us
  | .assignment, ts, t => ∀ m us, ts.length ≤ m → Ends continuesSum us →
      Reads (Like t) (assignment (depth (m + 1))) (ts ++ us) us

section Recited

variable {ts us vs : List Token} {t u v : Phrase} {m : Nat}

/-! ## Looser categories -/

theorem reads_sum (h : Recited .sum ts t) (hm : ts.length ≤ m) (hus : Ends continuesSum us) :
    Reads (Like t) (sum (depth m)) (ts ++ us) us := by
  refine (h.2 m us hm hus.sum).reads fun token htoken => ?_
  have hnone := hus token htoken
  rw [continuesSum, Bool.or_eq_false_iff] at hnone
  exact Option.isSome_eq_false_iff.mp hnone.2 |> Option.isNone_iff_eq_none.mp

theorem reads_product (h : Recited .product ts t) (hm : ts.length ≤ m)
    (hus : Ends continuesProduct us) : Reads (Like t) (product (depth m)) (ts ++ us) us := by
  refine (h.2 m us hm hus.product).reads fun token htoken => ?_
  have hnone := hus token htoken
  rw [continuesProduct, Bool.or_eq_false_iff] at hnone
  exact Option.isSome_eq_false_iff.mp hnone.2 |> Option.isNone_iff_eq_none.mp

theorem reads_signed (h : Recited .signed ts t) (hm : ts.length ≤ m)
    (hus : Ends continuesPath us) : Reads (Like t) (signed (depth m)) (ts ++ us) us := by
  refine reads_get.bind fun c hc => h.2 m _ us hm ?_ hus
  have hlength := congrArg List.length hc
  rw [Cursor.tokens, List.length_map, List.length_append] at hlength
  omega

theorem reads_factor (h : Recited .factor ts t) (hm : ts.length ≤ m)
    (hus : Ends continuesSimple us) : Reads (Like t) (factor (depth m)) (ts ++ us) us := by
  refine reads_get.bind fun c hc => h.2 m _ us hm ?_ hus
  have hlength := congrArg List.length hc
  rw [Cursor.tokens, List.length_map, List.length_append] at hlength
  omega

/-- A word that calls nothing is read by itself. -/
theorem reads_primary_of_word {inner : Inner} {P : Phrase → Prop} {w : String}
    (hsecond : ts.head? ≠ some .opening) (h : Reads P (wordPhrase w) (.word w :: ts) us) :
    Reads P (primary inner) (.word w :: ts) us := by
  refine reads_peek.bind fun t? ht => ?_
  subst ht
  refine reads_peekSecond.bind fun u? hu => ?_
  rw [if_neg (by rw [hu]; exact hsecond)]
  exact h

theorem keywordLabel?_of_not_reserved {k : Keyword} (h : k.isReserved = false) :
    keywordLabel? k = none := by
  cases k <;> first | rfl | cases h

/-- What a variable's name begins is read as a path. -/
theorem wordPhrase_of_isVariable {w : String} (h : isVariable w) :
    wordPhrase w = pathExpression := by
  rw [isVariable, Bool.and_eq_true] at h
  unfold wordPhrase
  cases hk : Keyword.ofWord? w with
  | none => rfl
  | some k =>
      have hreserved : k.isReserved = false := by simpa [hk] using h.2
      simp only [keywordLabel?_of_not_reserved hreserved, hreserved, Bool.false_eq_true, if_false]

theorem opensPrimary_of_isVariable {w : String} (h : isVariable w) :
    opensPrimary (.word w) = true := by
  rw [isVariable, Bool.and_eq_true] at h
  cases hk : Keyword.ofWord? w with
  | none => simp [opensPrimary, hk]
  | some k =>
      have hreserved : k.isReserved = false := by simpa [hk] using h.2
      simp [opensPrimary, hk, hreserved]

theorem head?_append_ne {token : Token} (h : ts.head? ≠ some token) (h' : us.head? ≠ some token) :
    (ts ++ us).head? ≠ some token := by
  cases ts with
  | nil => exact h'
  | cons t ts => exact h

theorem recited_primary_of_reference (h : Recited .reference ts t) : Recited .primary ts t := by
  obtain ⟨⟨w, rest, rfl, hw, hopening⟩, hreads⟩ := h
  refine ⟨⟨_, _, rfl, opensPrimary_of_isVariable hw⟩, fun m us _ hus => ?_⟩
  refine reads_primary_of_word (head?_append_ne hopening (hus.head?_ne rfl)) ?_
  rw [wordPhrase_of_isVariable hw]
  exact hreads us hus

theorem recited_signed_of_primary (h : Recited .primary ts t) : Recited .signed ts t := by
  refine ⟨h.1.operand, fun m n us hm _ hus => ?_⟩
  cases n with
  | zero => exact h.2 m us hm hus
  | succ n =>
      exact reads_here.bind fun start _ => reads_else_eat (h.1.head?_ne rfl)
        (reads_else_eat (h.1.head?_ne rfl) (h.2 m us hm hus))

theorem recited_product_of_signed (h : Recited .signed ts t) : Recited .product ts t :=
  ⟨h.1, fun _ _ hm hus => .first (reads_signed h hm hus)⟩

theorem recited_sum_of_product (h : Recited .product ts t) : Recited .sum ts t :=
  ⟨h.1, fun _ _ hm hus => .first (reads_product h hm hus)⟩

/-- Where nothing continues a condition no predicate follows its operand. -/
theorem reads_no_predicate {inner : Inner} {P : Phrase → Prop} (hus : Ends continuesSimple us)
    (hu : P u) (start : Source.Span) : Reads P (predicate inner u start) us us := by
  refine Reads.bind (P := (· = false)) (m := us) ?_ fun negated hnegated => ?_
  · refine reads_peekKeyword.bind fun k? hk => ?_
    have hnot : k? ≠ some .not := fun hnot => (hus.simple_keyword (hk ▸ hnot)).2.2.1 rfl
    rw [if_neg hnot]
    exact .pure rfl
  · refine reads_peekKeyword.bind fun k? hk => ?_
    cases k? with
    | none => exact .pure hu
    | some k =>
        obtain ⟨hnegation, his, -⟩ := hus.simple_keyword hk.symm
        cases k <;> first
          | exact absurd hnegation (by decide)
          | exact absurd rfl his
          | exact .pure hu

theorem recited_simple_of_sum (h : Recited .sum ts t) : Recited .simple ts t := by
  refine ⟨h.1.simple, fun m us hm hus => reads_here.bind fun start _ => ?_⟩
  refine reads_else_keyword (h.1.ne_keyword opensOperand_keyword (by decide +kernel) us) ?_
  refine (reads_sum h hm hus.simple).bind fun u hu => reads_peek.bind fun t? ht => ?_
  have hcomparison : us.head?.bind comparison? = none := by
    cases us with
    | nil => rfl
    | cons token us =>
        have hcontinues := hus token rfl
        simp only [continuesSimple, Bool.or_eq_false_iff] at hcontinues
        simpa using hcontinues.1.2
  simp only [ht, hcomparison]
  exact reads_no_predicate hus hu start

theorem recited_factor_of_simple (h : Recited .simple ts t) : Recited .factor ts t := by
  refine ⟨h.1.condition, fun m n us hm _ hus => ?_⟩
  cases n with
  | zero => exact h.2 m us hm hus
  | succ n =>
      exact reads_here.bind fun start _ => reads_else_keyword
        (h.1.ne_keyword opensSimple_keyword (by decide +kernel) us) (h.2 m us hm hus)

/-- Some phrases of a category with their tokens. -/
def AllRecited (c : Category) (ps : List (Phrase × List Token)) : Prop :=
  ∀ p ∈ ps, Recited c p.2 p.1

section Connectives

variable {p q : Phrase × List Token} {ps : List (Phrase × List Token)}

theorem reads_factors (h : AllRecited .factor (p :: ps))
    (hm : (separatedBy Keyword.and.token p.2 (ps.map Prod.snd)).length ≤ m)
    (hus : Ends continuesTerm us) :
    Reads (fun as => bareAll as = bareAll (p.1 :: ps.map Prod.fst))
      (separated (eatKeyword .and) (factor (depth m)))
      (separatedBy Keyword.and.token p.2 (ps.map Prod.snd) ++ us) us :=
  reads_separated (fun ts => reads_eatKeyword (Token.keyword?_token _))
    (fun q hq us hus => reads_factor (h q hq) (Nat.le_trans (length_le_separatedBy q hq) hm) hus)
    (by decide +kernel) hus.term
    (reads_eatKeyword_other (hus.ne_keyword fun ht => by simp [continuesTerm, ht]))

theorem recited_term_of_factor (h : Recited .factor ts t) : Recited .term ts t := by
  refine ⟨h.1, fun m us hm hus => reads_here.bind fun start _ => ?_⟩
  have hreads := @reads_factors us m (t, ts) [] (List.forall_mem_singleton.mpr h)
  simp only [separatedBy, List.map_nil, List.flatten_nil, List.append_nil] at hreads
  exact (hreads hm hus).bind fun us hus => reads_collapse_one hus

theorem recited_and (h : AllRecited .factor (p :: q :: ps)) (s : Source.Span) :
    Recited .term (separatedBy Keyword.and.token p.2 ((q :: ps).map Prod.snd))
      (.node .and (p.1 :: q.1 :: ps.map Prod.fst) s) := by
  refine ⟨(h p (by simp)).1.append _, fun m us hm hus => reads_here.bind fun start _ => ?_⟩
  exact (reads_factors h hm hus).bind fun us hus => reads_collapse_many s hus

theorem reads_terms (h : AllRecited .term (p :: ps))
    (hm : (separatedBy Keyword.or.token p.2 (ps.map Prod.snd)).length ≤ m)
    (hus : Ends continuesCondition us) :
    Reads (fun as => bareAll as = bareAll (p.1 :: ps.map Prod.fst))
      (separated (eatKeyword .or) (term (depth m)))
      (separatedBy Keyword.or.token p.2 (ps.map Prod.snd) ++ us) us :=
  reads_separated (fun ts => reads_eatKeyword (Token.keyword?_token _))
    (fun q hq us hus => (h q hq).2 m us (Nat.le_trans (length_le_separatedBy q hq) hm) hus)
    (by decide +kernel) hus.condition
    (reads_eatKeyword_other (hus.ne_keyword fun ht => by simp [continuesCondition, ht]))

theorem recited_condition_of_term (h : Recited .term ts t) : Recited .condition ts t := by
  refine ⟨h.1, fun m us hm hus => reads_here.bind fun start _ => ?_⟩
  have hreads := @reads_terms us m (t, ts) [] (List.forall_mem_singleton.mpr h)
  simp only [separatedBy, List.map_nil, List.flatten_nil, List.append_nil] at hreads
  exact (hreads hm hus).bind fun us hus => reads_collapse_one hus

theorem recited_or (h : AllRecited .term (p :: q :: ps)) (s : Source.Span) :
    Recited .condition (separatedBy Keyword.or.token p.2 ((q :: ps).map Prod.snd))
      (.node .or (p.1 :: q.1 :: ps.map Prod.fst) s) := by
  refine ⟨(h p (by simp)).1.append _, fun m us hm hus => reads_here.bind fun start _ => ?_⟩
  exact (reads_terms h hm hus).bind fun us hus => reads_collapse_many s hus

end Connectives

/-! ## Operands -/

theorem reads_inner_condition (h : Recited .condition ts t) (hm : ts.length < m)
    (hus : Ends continuesCondition us) : Reads (Like t) (depth m).condition (ts ++ us) us := by
  cases m with
  | zero => cases hm
  | succ m => exact h.2 m us (Nat.le_of_lt_succ hm) hus

theorem reads_inner_operand (h : Recited .sum ts t) (hm : ts.length < m)
    (hus : Ends continuesSum us) : Reads (Like t) (depth m).operand (ts ++ us) us := by
  cases m with
  | zero => cases hm
  | succ m => exact reads_sum h (Nat.le_of_lt_succ hm) hus

/-- A subselect is read once its opening bracket has been passed. -/
theorem reads_inner_subselect (h : Recited .subselect (.opening :: ts) t)
    (hm : ts.length < m) (start : Source.Span) (us : List Token) :
    Reads (Like t) ((depth m).subselect start) (ts ++ us) us := by
  cases m with
  | zero => cases hm
  | succ m =>
      obtain ⟨rest, hrest, -, hreads⟩ := h
      cases hrest
      exact hreads m start us (Nat.le_of_lt_succ hm)

theorem recited_literal {token : Token} {l : Label} (h : literalLabel? token = some l)
    (s : Source.Span) : Recited .primary [token] (.node l [] s) := by
  have hsingle : ∀ us, Reads (Like (.node l [] s)) (single l) (token :: us) us := fun us =>
    reads_here.bind fun s' _ => reads_advance.bind fun _ _ => .pure (.node rfl s s')
  refine ⟨⟨token, [], rfl, ?_⟩, fun m us _ _ => reads_peek.bind fun t? ht => ?_⟩
  · cases token <;> cases h <;> rfl
  · subst ht
    cases token <;> cases h <;> exact hsingle us

theorem recited_keyword {k : Keyword} {l : Label} (h : keywordLabel? k = some l)
    (s : Source.Span) : Recited .primary [k.token] (.node l [] s) := by
  refine ⟨⟨_, [], rfl, ?_⟩, fun m us _ hus => ?_⟩
  · simp [opensPrimary, Keyword.token, k.ofWord?_text, h]
  · refine reads_primary_of_word (hus.head?_ne rfl) ?_
    unfold wordPhrase
    simp only [k.ofWord?_text, h]
    exact reads_here.bind fun s' _ => reads_advance.bind fun _ _ => .pure (.node rfl s s')

theorem recited_primary_of_subselect (h : Recited .subselect ts t) : Recited .primary ts t := by
  have ⟨rest, hts, hselect, _⟩ := h
  subst hts
  refine ⟨⟨_, _, rfl, rfl⟩, fun m us hm _ => reads_peek.bind fun t? ht => ?_⟩
  subst ht
  refine reads_here.bind fun start _ => reads_advance.bind fun _ _ => ?_
  cases rest with
  | nil => cases hselect
  | cons token rest => exact reads_when_keyword hselect (reads_inner_subselect h hm start us)

theorem recited_brackets (h : Recited .condition ts t) (s : Source.Span) :
    Recited .primary (.opening :: (ts ++ [.closing])) (.node .brackets [t] s) := by
  refine ⟨⟨_, _, rfl, rfl⟩, fun m us hm _ => ?_⟩
  simp only [List.cons_append, List.append_assoc, List.nil_append]
  refine reads_peek.bind fun t? ht => ?_
  subst ht
  refine reads_here.bind fun start _ => reads_advance.bind fun _ _ => ?_
  simp only [List.length_cons, List.length_append, List.length_nil] at hm
  refine reads_unless_keyword (h.1.ne_keyword opensCondition_keyword (by decide +kernel) _) ?_
  refine (reads_inner_condition h (by omega) (ends_cons (by decide +kernel))).bind fun u hu => ?_
  exact (reads_require _).bind fun _ _ => reads_close s (bareAll_one hu)

theorem recited_negative (h : Recited .signed ts t) (s : Source.Span) :
    Recited .signed (.minus :: ts) (.node .negative [t] s) := by
  refine ⟨⟨_, _, rfl, rfl⟩, fun m n us hm hn hus => ?_⟩
  cases n with
  | zero => cases hn
  | succ n =>
      refine reads_here.bind fun start _ => reads_if_eat ?_
      refine (h.2 m n us (Nat.le_of_succ_le hm) (Nat.le_of_succ_le_succ hn) hus).bind fun u hu => ?_
      exact reads_close s (bareAll_one hu)

theorem recited_multiply {token : Token} {op : ArithmeticOperator}
    (hop : productOperator? token = some op) (ht : Recited .product ts t)
    (hu : Recited .signed us u) (s : Source.Span) :
    Recited .product (ts ++ token :: us) (.node (.arithmetic op) [t, u] s) := by
  refine ⟨ht.1.append _, fun m vs hm hvs => ?_⟩
  simp only [List.length_append, List.length_cons] at hm
  have hends : Ends continuesPath (token :: us ++ vs) :=
    ends_cons (by cases token <;> cases hop <;> rfl)
  exact (ht.2 m _ (by omega) hends).step s hop (reads_signed hu (by omega) hvs)

theorem recited_add {token : Token} {op : ArithmeticOperator}
    (hop : sumOperator? token = some op) (ht : Recited .sum ts t)
    (hu : Recited .product us u) (s : Source.Span) :
    Recited .sum (ts ++ token :: us) (.node (.arithmetic op) [t, u] s) := by
  refine ⟨ht.1.append _, fun m vs hm hvs => ?_⟩
  simp only [List.length_append, List.length_cons] at hm
  have hends : Ends continuesProduct (token :: us ++ vs) :=
    ends_cons (by cases token <;> cases hop <;> rfl)
  exact (ht.2 m _ (by omega) hends).step s hop (reads_product hu (by omega) hvs)

/-! ## Calls -/

/-- A word in front of an opening bracket may call a function. -/
theorem reads_primary_of_call {inner : Inner} {P : Phrase → Prop} {w : String}
    (h : Reads (fun t? => ∃ t, t? = some t ∧ P t) (call? inner w) (.word w :: .opening :: ts) us) :
    Reads P (primary inner) (.word w :: .opening :: ts) us := by
  refine reads_peek.bind fun t? ht => ?_
  subst ht
  refine reads_peekSecond.bind fun u? hu => ?_
  rw [if_pos (show u? = some .opening from hu)]
  refine h.bind fun t? ht => ?_
  obtain ⟨t, rfl, ht⟩ := ht
  exact .pure ht

theorem aggregate_ofWord?_text (f : Aggregate) : Aggregate.ofWord? f.text = some f := by
  cases f <;> decide +kernel

theorem opensPrimary_aggregate (f : Aggregate) : opensPrimary (.word f.text) = true := by
  cases f <;> decide +kernel

theorem recited_aggregate (f : Aggregate) (distinct : Bool) (h : Recited .sum ts t)
    (s : Source.Span) :
    Recited .primary (.word f.text :: .opening :: (optionally distinct .distinct ++
      (ts ++ [.closing]))) (.node (.aggregate f distinct) [t] s) := by
  refine ⟨⟨_, _, rfl, opensPrimary_aggregate f⟩, fun m us hm _ => reads_primary_of_call ?_⟩
  refine reads_here.bind fun start _ => ?_
  simp only [aggregate_ofWord?_text]
  refine Reads.bind (P := Like (.node (.aggregate f distinct) [t] s)) (m := us) ?_
    fun u hu => .pure ⟨u, rfl, hu⟩
  simp only [List.length_cons, List.length_append] at hm
  refine reads_advance.bind fun _ _ => (reads_require _).bind fun _ _ => ?_
  simp only [List.append_eq, List.append_assoc]
  have hdistinct := h.1.ne_keyword opensOperand_keyword (k := .distinct) (by decide +kernel)
  refine (reads_optionally distinct (hdistinct _)).bind fun b hb => ?_
  subst hb
  refine (reads_inner_operand h (by omega) (ends_cons (by decide +kernel))).bind fun u hu => ?_
  exact (reads_require _).bind fun _ _ => reads_close s (bareAll_one hu)

theorem reads_operands {p : Phrase × List Token} {ps : List (Phrase × List Token)}
    (h : AllRecited .sum (p :: ps))
    (hm : (separatedBy .comma p.2 (ps.map Prod.snd)).length < m) (us : List Token) :
    Reads (fun as => bareAll as = bareAll (p.1 :: ps.map Prod.fst))
      (commaSeparated (depth m).operand)
      (separatedBy .comma p.2 (ps.map Prod.snd) ++ .closing :: us) (.closing :: us) :=
  reads_commaSeparated (fun q hq us hus => reads_inner_operand (h q hq)
    (Nat.lt_of_le_of_lt (length_le_separatedBy q hq) hm) hus) (by decide +kernel)
    (ends_cons (by decide +kernel)) (by simp)

/-- The names of functions as they are written. -/
theorem signature?_name {name : String} {f : Signature} (h : signature? name = some f) :
    name.toUpper = name ∧ Aggregate.ofWord? name = none ∧ opensPrimary (.word name) = true := by
  unfold signature? at h
  split at h <;> first
    | exact ⟨by decide +kernel, by decide +kernel, by decide +kernel⟩
    | cases h

theorem recited_call {name : String} {f : Signature} {p : Phrase × List Token}
    {ps : List (Phrase × List Token)} (hf : signature? name = some f)
    (hadmits : f.admits (p :: ps).length) (h : AllRecited .sum (p :: ps)) (s : Source.Span) :
    Recited .primary (.word name :: .opening :: (separatedBy .comma p.2 (ps.map Prod.snd) ++
      [.closing])) (.node f.label (p.1 :: ps.map Prod.fst) s) := by
  obtain ⟨hupper, haggregate, hopens⟩ := signature?_name hf
  refine ⟨⟨_, _, rfl, hopens⟩, fun m us hm _ => reads_primary_of_call ?_⟩
  refine reads_here.bind fun start _ => ?_
  simp only [haggregate, hupper, hf]
  refine Reads.bind (P := Like (.node f.label (p.1 :: ps.map Prod.fst) s)) (m := us) ?_
    fun u hu => .pure ⟨u, rfl, hu⟩
  simp only [List.length_cons, List.length_append] at hm
  refine reads_advance.bind fun _ _ => (reads_require _).bind fun _ _ => ?_
  simp only [List.append_eq, List.append_assoc]
  refine (reads_operands h (by omega) us).bind fun as has => ?_
  rw [if_pos (by rw [length_of_bareAll has]; simpa using hadmits)]
  exact (reads_require _).bind fun _ _ => reads_close s has

/-! ## Trimming -/

/-- The keyword of a side. -/
def sideKeyword : TrimSide → Keyword
  | .leading => .leading
  | .trailing => .trailing
  | .both => .both

/-- The token can be read as a side. -/
def isSide (t : Token) : Bool :=
  t.keyword?.any fun k => k = .leading || k = .trailing || k = .both

theorem reads_trimSide (side : TrimSide) :
    Reads (· = some side) trimSide ((sideKeyword side).token :: ts) ts := by
  refine reads_peekKeyword.bind fun k? hk => ?_
  rw [nextKeyword?, List.head?_cons, Option.bind_some, Token.keyword?_token] at hk
  subst hk
  cases side <;> exact reads_advance.bind fun _ _ => .pure rfl

theorem reads_no_trimSide (h : Ends isSide ts) : Reads (· = none) trimSide ts ts := by
  refine reads_peekKeyword.bind fun k? hk => ?_
  cases k? with
  | none => exact .pure rfl
  | some k =>
      cases ts with
      | nil => cases hk
      | cons token ts =>
          have hkeyword : token.keyword? = some k := hk.symm
          have hside : isSide token = false := h token rfl
          rw [isSide, hkeyword] at hside
          cases k <;> first
            | exact absurd hside (by decide)
            | exact .pure rfl

/-- The tokens of a side that may be left out. -/
def sideTokens (side : Option TrimSide) : List Token :=
  (side.map fun s => (sideKeyword s).token).toList

theorem reads_side {side : Option TrimSide} (h : side = none → Ends isSide ts) :
    Reads (· = side) trimSide (sideTokens side ++ ts) ts := by
  cases side with
  | none => exact reads_no_trimSide (h rfl)
  | some side => exact reads_trimSide side

theorem opensPrimary_trim : opensPrimary (.word "TRIM") = true := by
  decide +kernel

/-- A call of trimming is read if what stands behind the side is. -/
theorem recited_trim_of_reads (side : Option TrimSide) (cs : List Phrase) (body : List Token)
    (s : Source.Span) (hside : side = none → Ends isSide (body ++ [.closing]))
    (hbody : ∀ m start us, body.length < m → Reads (Like (.node (.trim side) cs s)) (do
      let operands ← do
        if ← eatKeyword .from_ then pure [← (depth m).operand]
        else
          let first ← (depth m).operand
          if ← eatKeyword .from_ then pure [first, ← (depth m).operand]
          else if side.isSome then fail "FROM"
          else pure [first]
      let _ ← require .closing "')'"
      close (.trim side) operands start) (body ++ .closing :: us) us) :
    Recited .primary (.word "TRIM" :: .opening :: (sideTokens side ++ (body ++ [.closing])))
      (.node (.trim side) cs s) := by
  refine ⟨⟨_, _, rfl, opensPrimary_trim⟩, fun m us hm _ => reads_primary_of_call ?_⟩
  refine reads_here.bind fun start _ => ?_
  have haggregate : Aggregate.ofWord? "TRIM" = none := by decide +kernel
  have hupper : "TRIM".toUpper = "TRIM" := by decide +kernel
  simp only [haggregate, hupper, if_true]
  refine Reads.bind (P := Like (.node (.trim side) cs s)) (m := us) ?_
    fun u hu => .pure ⟨u, rfl, hu⟩
  refine reads_advance.bind fun _ _ => (reads_require _).bind fun _ _ => ?_
  simp only [List.append_eq, List.append_assoc, List.cons_append, List.nil_append]
  have hnext : side = none → Ends isSide (body ++ .closing :: us) := by
    intro hnone
    have hends := hside hnone
    cases body with
    | nil => exact ends_cons (by decide +kernel)
    | cons token body => exact ends_cons (hends token rfl)
  refine (reads_side hnext).bind fun side' hside' => ?_
  subst hside'
  refine hbody m start us ?_
  simp only [List.length_cons, List.length_append] at hm
  omega

theorem recited_trim (h : Recited .sum ts t) (hside : Ends isSide ts) (s : Source.Span) :
    Recited .primary (.word "TRIM" :: .opening :: (ts ++ [.closing]))
      (.node (.trim none) [t] s) := by
  refine recited_trim_of_reads none [t] ts s (fun _ => ?_) fun m start us hm => ?_
  · obtain ⟨token, ts, rfl, -⟩ := h.1
    exact ends_cons (hside token rfl)
  refine reads_else_keyword (h.1.ne_keyword opensOperand_keyword (by decide +kernel) _) ?_
  refine (reads_inner_operand h hm (ends_cons (by decide +kernel))).bind fun u hu => ?_
  refine reads_else_keyword (by simp [nextKeyword?, Token.keyword?]) ?_
  exact (reads_require _).bind fun _ _ => reads_close s (bareAll_one hu)

theorem recited_trimSide (side : TrimSide) (h : Recited .sum ts t) (s : Source.Span) :
    Recited .primary (.word "TRIM" :: .opening :: ((sideKeyword side).token ::
      Keyword.from_.token :: (ts ++ [.closing]))) (.node (.trim (some side)) [t] s) := by
  refine recited_trim_of_reads (some side) [t] (Keyword.from_.token :: ts) s
    (fun hnone => by cases hnone) fun m start us hm => ?_
  refine reads_if_keyword (Token.keyword?_token _) ?_
  refine (reads_inner_operand h (Nat.lt_of_succ_lt hm) (ends_cons (by decide +kernel))).bind
    fun u hu => ?_
  exact (reads_require _).bind fun _ _ => reads_close s (bareAll_one hu)

theorem recited_trimOff {side : Option TrimSide} (ht : Recited .sum ts t)
    (hu : Recited .sum us u) (hside : side = none → Ends isSide ts) (s : Source.Span) :
    Recited .primary (.word "TRIM" :: .opening :: (sideTokens side ++
      (ts ++ Keyword.from_.token :: (us ++ [.closing])))) (.node (.trim side) [t, u] s) := by
  have h := recited_trim_of_reads side [t, u] (ts ++ Keyword.from_.token :: us) s
    (fun hnone => ?_) fun m start vs hm => ?_
  · simpa only [List.append_assoc, List.cons_append] using h
  · obtain ⟨token, ts, rfl, -⟩ := ht.1
    exact ends_cons (hside hnone token rfl)
  simp only [List.length_append, List.length_cons] at hm
  rw [List.append_assoc]
  refine reads_else_keyword (ht.1.ne_keyword opensOperand_keyword (by decide +kernel) _) ?_
  refine (reads_inner_operand ht (by omega) (ends_cons (by decide +kernel))).bind fun v hv => ?_
  refine reads_if_keyword (Token.keyword?_token _) ?_
  refine (reads_inner_operand hu (by omega) (ends_cons (by decide +kernel))).bind fun w hw => ?_
  exact (reads_require _).bind fun _ _ => reads_close s (bareAll_two hv hw)

/-! ## Conditions without connectives -/

theorem recited_exist (h : Recited .subselect ts t) (s : Source.Span) :
    Recited .simple (Keyword.exists_.token :: ts) (.node .exist [t] s) := by
  have ⟨rest, hts, hselect, _⟩ := h
  subst hts
  refine ⟨⟨_, _, rfl, by simp [opensSimple]⟩, fun m us hm _ => reads_here.bind fun start _ => ?_⟩
  refine reads_if_keyword (Token.keyword?_token _) ((reads_require _).bind fun opening _ => ?_)
  simp only [List.length_cons] at hm
  cases rest with
  | nil => cases hselect
  | cons token rest =>
      refine reads_when_keyword hselect ?_
      simp only [List.length_cons] at hm
      refine (reads_inner_subselect h (by rw [List.length_cons]; omega) opening us).bind
        fun u hu => ?_
      exact reads_close s (bareAll_one hu)

theorem recited_compare {token : Token} {op : Comparison} (hop : comparison? token = some op)
    (ht : Recited .sum ts t) (hu : Recited .sum us u) (s : Source.Span) :
    Recited .simple (ts ++ token :: us) (.node (.compare op) [t, u] s) := by
  refine ⟨(ht.1.append _).simple, fun m vs hm hvs => reads_here.bind fun start _ => ?_⟩
  simp only [List.length_append, List.length_cons] at hm
  rw [List.append_assoc]
  refine reads_else_keyword (ht.1.ne_keyword opensOperand_keyword (by decide +kernel) _) ?_
  have hends : Ends continuesSum (token :: us ++ vs) :=
    ends_cons (by cases token <;> cases hop <;> rfl)
  refine (reads_sum ht (by omega) hends).bind fun v hv => reads_peek.bind fun t? ht? => ?_
  simp only [ht?, List.cons_append, List.head?_cons, Option.bind_some, hop]
  refine reads_advance.bind fun _ _ => (reads_sum hu (by omega) hvs.simple).bind fun w hw => ?_
  exact reads_close s (bareAll_two hv hw)

/-- A test as it is or negated. -/
def negatedIf (b : Bool) (t : Phrase) (s : Source.Span) : Phrase :=
  if b then .node .not [t] s else t

theorem continuesSum_keyword (k : Keyword) : continuesSum k.token = false := rfl

/-- An operand and a predicate behind it, which begins with a keyword. -/
theorem recited_of_predicate {k : Keyword} {rest : List Token} (hv : Recited .sum vs v)
    (h : ∀ m u start us, Like v u → vs.length + rest.length < m → Ends continuesSimple us →
      Reads (Like t) (predicate (depth m) u start) (k.token :: rest ++ us) us) :
    Recited .simple (vs ++ k.token :: rest) t := by
  refine ⟨(hv.1.append _).simple, fun m us hm hus => reads_here.bind fun start _ => ?_⟩
  simp only [List.length_append, List.length_cons] at hm
  rw [List.append_assoc]
  refine reads_else_keyword (hv.1.ne_keyword opensOperand_keyword (by decide +kernel) _) ?_
  refine (reads_sum hv (by omega) (ends_cons (continuesSum_keyword k))).bind fun u hu => ?_
  refine reads_peek.bind fun t? ht => ?_
  subst ht
  exact h m u start us hu (by omega) hus

theorem reads_predicateNegation (b : Bool) {k : Keyword} (hk : takesNegation k = true) :
    Reads (· = b) predicateNegation (optionally b .not ++ k.token :: ts) (k.token :: ts) := by
  cases b with
  | true =>
      refine reads_when_keyword (Token.keyword?_token _) (reads_peekSecond.bind fun t? ht => ?_)
      have hsecond : ((t?.bind Token.keyword?).map takesNegation).getD false = true := by
        rw [ht]
        simp [hk]
      rw [if_pos hsecond]
      exact reads_advance.bind fun _ _ => .pure rfl
  | false =>
      refine reads_unless_keyword (fun hnot => ?_) (.pure rfl)
      obtain rfl : k = .not := Option.some.inj ((Token.keyword?_token k).symm.trans hnot)
      cases hk

theorem reads_finish (b : Bool) {start : Source.Span} (s : Source.Span) (hu : Like t u) :
    Reads (Like (negatedIf b t s)) (if b then close .not [u] start else pure u : Reader Phrase)
      ts ts := by
  cases b with
  | true => exact reads_close s (bareAll_one hu)
  | false => exact .pure hu

/-- A test that may be negated.  What stands behind the negation is told by the keyword. -/
theorem recited_of_test {k : Keyword} {rest : List Token} {read : Inner → Phrase → Source.Span →
    Bool → Option Keyword → Reader Phrase} (b : Bool) (hk : takesNegation k = true)
    (hread : ∀ inner u start, predicate inner u start = do
      let negated ← predicateNegation
      let keyword? ← peekKeyword
      read inner u start negated keyword?)
    (hv : Recited .sum vs v)
    (h : ∀ m u start us, Like v u → vs.length + rest.length < m → Ends continuesSimple us →
      Reads (Like t) (read (depth m) u start b (some k)) (k.token :: rest ++ us) us) :
    Recited .simple (vs ++ (optionally b .not ++ k.token :: rest)) t := by
  have hpredicate : ∀ m u start us, Like v u → vs.length + rest.length < m →
      Ends continuesSimple us → Reads (Like t) (predicate (depth m) u start)
        (optionally b .not ++ k.token :: rest ++ us) us := by
    intro m u start us hu hm hus
    rw [hread, List.append_assoc]
    refine (reads_predicateNegation b hk).bind fun negated hnegated => ?_
    refine reads_peekKeyword.bind fun k? hk? => ?_
    rw [hnegated, hk?, nextKeyword?, List.head?_cons, Option.bind_some, Token.keyword?_token]
    exact h m u start us hu hm hus
  cases b with
  | true => 
      exact recited_of_predicate (k := .not) hv fun m u start us hu hm hus =>
        hpredicate m u start us hu (by simp at hm; omega) hus
  | false => exact recited_of_predicate hv hpredicate

theorem continuesSum_comma : continuesSum .comma = false := rfl

theorem continuesSum_closing : continuesSum .closing = false := rfl

section Tests

variable (b : Bool) (hv : Recited .sum vs v) (s s' : Source.Span)
include hv

theorem recited_between {ls : List Token} {l : Phrase} (hl : Recited .sum ls l)
    (hu : Recited .sum us u) :
    Recited .simple (vs ++ (optionally b .not ++ Keyword.between.token :: (ls ++
      Keyword.and.token :: us))) (negatedIf b (.node .between [v, l, u] s) s') := by
  refine recited_of_test b rfl (fun _ _ _ => rfl) hv fun m w start ws hw hm hws => ?_
  simp only [List.length_append, List.length_cons] at hm
  refine Reads.bind (P := Like (.node .between [v, l, u] s)) (m := ws) ?_
    fun x hx => reads_finish b s' hx
  refine reads_advance.bind fun _ _ => ?_
  simp only [List.append_eq, List.append_assoc, List.cons_append]
  refine (reads_sum hl (by omega) (ends_cons (continuesSum_keyword _))).bind fun x hx => ?_
  refine (reads_requireKeyword (Token.keyword?_token _)).bind fun _ _ => ?_
  refine (reads_sum hu (by omega) hws.simple).bind fun y hy => ?_
  exact reads_close s (bareAll_three hw hx hy)

/-- The items of a membership test between their brackets. -/
theorem recited_isIn_of_items {items : List Token} {ts : List Phrase}
    (h : ∀ m us, items.length < m → Reads (fun as => bareAll as = bareAll ts)
      (Grammar.items (depth m)) (items ++ us) us) :
    Recited .simple (vs ++ (optionally b .not ++ Keyword.in_.token :: items))
      (negatedIf b (.node .isIn (v :: ts) s) s') := by
  refine recited_of_test b rfl (fun _ _ _ => rfl) hv fun m w start ws hw hm hws => ?_
  refine Reads.bind (P := Like (.node .isIn (v :: ts) s)) (m := ws) ?_
    fun x hx => reads_finish b s' hx
  refine reads_advance.bind fun _ _ => (h m ws (by omega)).bind fun as has => ?_
  exact reads_close s (by rw [bareAll, bareAll, show w.bare = _ from hw, has])

theorem recited_isIn {p : Phrase × List Token} {ps : List (Phrase × List Token)}
    (h : AllRecited .sum (p :: ps)) :
    Recited .simple (vs ++ (optionally b .not ++ Keyword.in_.token :: .opening ::
      (separatedBy .comma p.2 (ps.map Prod.snd) ++ [.closing])))
      (negatedIf b (.node .isIn (v :: p.1 :: ps.map Prod.fst) s) s') := by
  refine recited_isIn_of_items b hv s s' fun m us hm => reads_peek.bind fun t? ht => ?_
  subst ht
  refine (reads_require _).bind fun start _ => ?_
  simp only [List.append_eq, List.append_assoc, List.cons_append, List.nil_append]
  simp only [List.length_cons, List.length_append, List.length_nil] at hm
  have hstarts : Starts opensOperand (separatedBy .comma p.2 (ps.map Prod.snd)) :=
    (h p (by simp)).1.append _
  refine reads_unless_keyword (hstarts.ne_keyword opensOperand_keyword (by decide +kernel) _) ?_
  refine Reads.bind (P := fun as => bareAll as = bareAll (p.1 :: ps.map Prod.fst))
    (m := .closing :: us) ?_ fun as has => (reads_require _).bind fun _ _ => .pure has
  have hle : (separatedBy .comma p.2 (ps.map Prod.snd)).length ≤ m := by omega
  exact reads_commaSeparated (fun q hq us hus => reads_sum (h q hq)
    (Nat.le_trans (length_le_separatedBy q hq) hle) hus) continuesSum_comma
    (ends_cons continuesSum_closing) (by simp)

theorem recited_isIn_subselect (h : Recited .subselect us u) :
    Recited .simple (vs ++ (optionally b .not ++ Keyword.in_.token :: us))
      (negatedIf b (.node .isIn [v, u] s) s') := by
  have ⟨rest, hus, hselect, _⟩ := h
  subst hus
  refine recited_isIn_of_items b hv s s' fun m ws hm => reads_peek.bind fun t? ht => ?_
  subst ht
  refine (reads_require _).bind fun start _ => ?_
  simp only [List.length_cons] at hm
  cases rest with
  | nil => cases hselect
  | cons token rest =>
      refine reads_when_keyword hselect ?_
      refine (reads_inner_subselect h (by omega) start ws).bind fun x hx => .pure ?_
      exact bareAll_one hx

theorem recited_like (hu : Recited .sum us u) :
    Recited .simple (vs ++ (optionally b .not ++ Keyword.like.token :: us))
      (negatedIf b (.node .like [v, u] s) s') := by
  refine recited_of_test b rfl (fun _ _ _ => rfl) hv fun m w start ws hw hm hws => ?_
  refine Reads.bind (P := Like (.node .like [v, u] s)) (m := ws) ?_
    fun x hx => reads_finish b s' hx
  refine reads_advance.bind fun _ _ => (reads_sum hu (by omega) hws.simple).bind fun x hx => ?_
  exact reads_else_keyword (fun hescape => (hws.simple_keyword hescape).2.2.2 rfl)
    (reads_close s (bareAll_two hw hx))

theorem recited_likeEscape {es : List Token} {e : Phrase} (hu : Recited .sum us u)
    (he : Recited .primary es e) :
    Recited .simple (vs ++ (optionally b .not ++ Keyword.like.token :: (us ++
      Keyword.escape.token :: es))) (negatedIf b (.node .like [v, u, e] s) s') := by
  refine recited_of_test b rfl (fun _ _ _ => rfl) hv fun m w start ws hw hm hws => ?_
  simp only [List.length_append, List.length_cons] at hm
  refine Reads.bind (P := Like (.node .like [v, u, e] s)) (m := ws) ?_
    fun x hx => reads_finish b s' hx
  refine reads_advance.bind fun _ _ => ?_
  simp only [List.append_eq, List.append_assoc, List.cons_append]
  refine (reads_sum hu (by omega) (ends_cons (continuesSum_keyword _))).bind fun x hx => ?_
  refine reads_if_keyword (Token.keyword?_token _) ?_
  refine (he.2 m ws (by omega) hws.simple.sum.product).bind fun y hy => ?_
  exact reads_close s (bareAll_three hw hx hy)

theorem recited_memberOf (hu : Recited .primary us u) :
    Recited .simple (vs ++ (optionally b .not ++ Keyword.member.token :: Keyword.of_.token :: us))
      (negatedIf b (.node .memberOf [v, u] s) s') := by
  refine recited_of_test b rfl (fun _ _ _ => rfl) hv fun m w start ws hw hm hws => ?_
  simp only [List.length_cons] at hm
  refine Reads.bind (P := Like (.node .memberOf [v, u] s)) (m := ws) ?_
    fun x hx => reads_finish b s' hx
  refine reads_advance.bind fun _ _ => ?_
  refine (reads_eatKeyword (Token.keyword?_token _)).bind fun _ _ => ?_
  refine (hu.2 m ws (by omega) hws.simple.sum.product).bind fun x hx => ?_
  exact reads_close s (bareAll_two hw hx)

/-- The tests of a state, which are negated behind `IS`. -/
theorem recited_stateTest {k : Keyword} {l : Label}
    (hlabel : (k = .null ∧ l = .isNull) ∨ (k = .empty ∧ l = .isEmpty)) :
    Recited .simple (vs ++ Keyword.is.token :: (optionally b .not ++ [k.token]))
      (negatedIf b (.node l [v] s) s') := by
  refine recited_of_predicate hv fun m w start ws hw hm hws => ?_
  simp only [List.cons_append, List.append_assoc, List.nil_append]
  refine Reads.bind (P := (· = false)) (reads_unless_keyword ?_ (.pure rfl))
    fun negated hnegated => reads_peekKeyword.bind fun k? hk? => ?_
  · rw [nextKeyword?, List.head?_cons, Option.bind_some, Token.keyword?_token]
    decide
  rw [nextKeyword?, List.head?_cons, Option.bind_some, Token.keyword?_token] at hk?
  subst hnegated hk?
  have hnot : nextKeyword? (k.token :: ws) ≠ some .not := by
    rw [nextKeyword?, List.head?_cons, Option.bind_some, Token.keyword?_token]
    rcases hlabel with ⟨rfl, -⟩ | ⟨rfl, -⟩ <;> decide
  refine reads_advance.bind fun _ _ => (reads_optionally b hnot).bind fun negated hnegated => ?_
  subst hnegated
  have hfinish : Reads (Like (negatedIf negated (.node l [v] s) s')) (do
      let test ← close l [w] start
      if negated then close .not [test] start else return test) ws ws :=
    (reads_close s (bareAll_one hw)).bind
      fun x hx => reads_finish negated s' hx
  rcases hlabel with ⟨rfl, rfl⟩ | ⟨rfl, rfl⟩
  · exact reads_if_keyword (Token.keyword?_token _) hfinish
  · refine reads_else_keyword ?_ (reads_if_keyword (Token.keyword?_token _) hfinish)
    rw [nextKeyword?, List.head?_cons, Option.bind_some, Token.keyword?_token]
    decide

end Tests

/-! ## Negation -/

theorem recited_not (h : Recited .factor ts t) (s : Source.Span) :
    Recited .factor (Keyword.not.token :: ts) (.node .not [t] s) := by
  refine ⟨⟨_, _, rfl, by simp [opensCondition]⟩, fun m n us hm hn hus => ?_⟩
  cases n with
  | zero => cases hn
  | succ n =>
      refine reads_here.bind fun start _ => reads_if_keyword (Token.keyword?_token _) ?_
      refine (h.2 m n us (Nat.le_of_succ_le hm) (Nat.le_of_succ_le_succ hn) hus).bind fun u hu => ?_
      exact reads_close s (bareAll_one hu)

end Recited

end Query.Grammar

end RowGuard
