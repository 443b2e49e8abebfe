import RowGuard.Proofs.Printing

/-!
# Statements survive printing

The clauses of a statement are printed one behind the other, and the keywords
they begin with keep them apart.  So whatever a text is read as is read again
from its canonical text, unless a trimming without a side is printed in front of
a word that is read as one.
-/

namespace RowGuard

open Query (AccessKind Grammar.Inner Keyword Label Phrase Printed Reader Seals Spells Token
  isName isName_text keywordText keywordText_append seals_keywords seals_word_dot
  seals_word_opening separates_blank separates_closing separates_comma spells_separated
  spells_sequence spells_word)
open Query.Phrase Query.Rendering

namespace Query.Grammar

open Reader

variable {c : Category} {t u v : Phrase}

/-! ## Select lists -/

theorem seals_pointed_opening {x : String} {ws : List String} (hx : isName x)
    (hws : ∀ w ∈ ws, isName w) :
    Seals (".".intercalate (x :: ws) ++ "(") (.word x :: (pointed ws ++ [.opening])) := by
  induction ws generalizing x with
  | nil => exact seals_word_opening hx
  | cons w ws ih =>
      rw [String.intercalate_cons_cons, String.append_assoc]
      exact (seals_word_dot hx).append
        (ih (hws w (by simp)) fun v hv => hws v (List.mem_cons_of_mem w hv))

theorem prints_newObject {w : String} {ws : List String} {ts : List Phrase}
    (hnames : ∀ v ∈ w :: ws, isName v) (h : ∀ u ∈ t :: ts, Prints .sum u) (s : Source.Span) :
    Prints .selected (.node (.newObject (Text.Dotted.join (w :: ws))) (t :: ts) s) := by
  obtain ⟨p, ps, rfl, rfl, hrecited, hspells⟩ := exists_tokens_cons h
  refine prints_of_legible (by simp) ⟨_, ?_, recited_newObject hrecited s⟩ (Nat.zero_le _) rfl
  have hopening := seals_pointed_opening (hnames w (by simp))
    fun v hv => hnames v (List.mem_cons_of_mem w hv)
  have hbody := hopening.append_spells
    ((spells_separated separates_comma hspells).append separates_closing).spells
  rw [← String.append_assoc] at hbody
  have htokens := (seals_keywords [.new]).append_spells hbody
  have htext : (Phrase.node (.newObject (Text.Dotted.join (w :: ws))) (p.1 :: ps.map Prod.fst)
      s).render = "NEW " ++ (".".intercalate (w :: ws) ++ "(" ++
        Rendering.sequence ", " (pieces (p.1 :: ps.map Prod.fst)) ++ ")") := rfl
  rw [htext]
  rw [List.cons_append, List.append_assoc] at htokens
  exact htokens

theorem prints_selectClause {ts : List Phrase} (distinct : Bool)
    (h : ∀ u ∈ t :: ts, Prints .selected u) (s : Source.Span) :
    Prints .selectClause (.node (.selectClause distinct) (t :: ts) s) := by
  obtain ⟨p, ps, rfl, rfl, hrecited, hspells⟩ := exists_tokens_cons h
  refine prints_of_legible (by simp) ⟨_, ?_, recited_selectClause distinct hrecited s⟩
    (Nat.zero_le _) rfl
  have htokens := spells_separated separates_comma hspells
  cases distinct with
  | true => exact (seals_keywords [.select, .distinct]).append_spells htokens
  | false => exact (seals_keywords [.select]).append_spells htokens

/-! ## From clauses -/

/-- The keywords that a join begins with. -/
def joinKeywords (outer fetch : Bool) : List Keyword :=
  (if outer then [.left, .outer] else [.inner]) ++ .join :: if fetch then [.fetch] else []

theorem joinKeywords_tokens (outer fetch : Bool) :
    (joinKeywords outer fetch).map Keyword.token = joinTokens outer ++ optionally fetch .fetch := by
  cases outer <;> cases fetch <;> rfl

theorem render_join (outer fetch : Bool) (ts : List Phrase) (s : Source.Span) :
    (Phrase.node (.join outer fetch) ts s).render =
      keywordText (joinKeywords outer fetch) ++ Rendering.sequence " " (pieces ts) := by
  cases outer <;> cases fetch <;> rfl

theorem prints_join {p : Phrase} (outer fetch : Bool) (h : Prints .reference p)
    (s : Source.Span) : Prints .join (.node (.join outer fetch) [p] s) := by
  obtain ⟨ts, hspells, hts⟩ := h.legible
  refine prints_of_legible (by simp) ⟨_, ?_, recited_join hts s⟩ (Nat.zero_le _) rfl
  have htokens := (seals_keywords (joinKeywords outer fetch)).append_spells hspells
  rw [joinKeywords_tokens, List.append_assoc] at htokens
  rw [render_join]
  exact htokens

theorem prints_joinNamed {p : Phrase} {a : String} (outer fetch : Bool) (h : Prints .reference p)
    (ha : isVariable a) (s r : Source.Span) :
    Prints .join (.node (.join outer fetch) [p, .node (.identifier a) [] r] s) := by
  obtain ⟨ts, hspells, hts⟩ := h.legible
  refine prints_of_legible (by simp) ⟨_, ?_, recited_joinNamed hts ha s r⟩ (Nat.zero_le _) rfl
  have hnamed : Spells (p.render ++ " " ++ a) (ts ++ [.word a]) :=
    hspells.joined separates_blank (spells_word (isName_of_isVariable ha))
  have htokens := (seals_keywords (joinKeywords outer fetch)).append_spells hnamed
  rw [joinKeywords_tokens, List.append_assoc] at htokens
  rw [render_join]
  exact htokens

/-- Phrases one behind the other. -/
theorem spells_blanks {p : Phrase × List Token} {ps : List (Phrase × List Token)}
    (h : Printed (p :: ps)) :
    Spells (Rendering.sequence " " (pieces (p.1 :: ps.map Prod.fst)))
      ((p :: ps).map Prod.snd).flatten := by
  have hspells := spells_sequence separates_blank h
  simpa using hspells

/-- An entity name and an alias, and what comes behind them. -/
theorem spells_range {e a : String} {ps : List (Phrase × List Token)} (he : isName e)
    (ha : isVariable a) (h : Printed ps) (s₁ s₂ : Source.Span) :
    Spells (Rendering.sequence " " (pieces (.node (.entityName e) [] s₁
      :: .node (.identifier a) [] s₂ :: ps.map Prod.fst)))
      (.word e :: .word a :: (ps.map Prod.snd).flatten) := by
  have hall : Printed ((.node (.entityName e) [] s₁, [.word e])
      :: (.node (.identifier a) [] s₂, [.word a]) :: ps) :=
    List.forall_mem_cons.mpr ⟨spells_word he,
      List.forall_mem_cons.mpr ⟨spells_word (isName_of_isVariable ha), h⟩⟩
  have htokens := spells_blanks hall
  exact htokens

theorem prints_fromItem {e a : String} {js : List Phrase} (he : isName e) (ha : isVariable a)
    (h : ∀ j ∈ js, Prints .join j) (s₁ s₂ s : Source.Span) :
    Prints .fromItem (.node .fromItem
      (.node (.entityName e) [] s₁ :: .node (.identifier a) [] s₂ :: js) s) := by
  obtain ⟨ps, rfl, hrecited, hspells⟩ := exists_tokens h
  exact prints_of_legible (by simp) ⟨_, spells_range he ha hspells s₁ s₂,
    recited_fromItem ha hrecited s₁ s₂ s⟩ (Nat.zero_le _) rfl

theorem prints_fromClause {ts : List Phrase} (h : ∀ u ∈ t :: ts, Prints .fromItem u)
    (s : Source.Span) : Prints .fromClause (.node .fromClause (t :: ts) s) := by
  obtain ⟨p, ps, rfl, rfl, hrecited, hspells⟩ := exists_tokens_cons h
  exact prints_of_legible (by simp) ⟨_, (seals_keywords [.from_]).append_spells
    (spells_separated separates_comma hspells), recited_fromClause hrecited s⟩ (Nat.zero_le _) rfl

/-! ## Further clauses -/

theorem prints_whereClause (h : Prints .condition t) (s : Source.Span) :
    Prints .whereClause (.node .whereClause [t] s) := by
  obtain ⟨ts, hspells, hts⟩ := h.legible
  exact prints_of_legible (by simp) ⟨_, (seals_keywords [.where_]).append_spells hspells,
    recited_whereClause hts s⟩ (Nat.zero_le _) rfl

theorem prints_havingClause (h : Prints .condition t) (s : Source.Span) :
    Prints .havingClause (.node .havingClause [t] s) := by
  obtain ⟨ts, hspells, hts⟩ := h.legible
  exact prints_of_legible (by simp) ⟨_, (seals_keywords [.having]).append_spells hspells,
    recited_havingClause hts s⟩ (Nat.zero_le _) rfl

theorem prints_groupByClause {ts : List Phrase} (h : ∀ u ∈ t :: ts, Prints .sum u)
    (s : Source.Span) : Prints .groupByClause (.node .groupByClause (t :: ts) s) := by
  obtain ⟨p, ps, rfl, rfl, hrecited, hspells⟩ := exists_tokens_cons h
  exact prints_of_legible (by simp) ⟨_, (seals_keywords [.group, .by_]).append_spells
    (spells_separated separates_comma hspells), recited_groupByClause hrecited s⟩
    (Nat.zero_le _) rfl

theorem prints_orderByItem (descending : Bool) (h : Prints .sum t) (s : Source.Span) :
    Prints .orderByItem (.node (.orderByItem descending) [t] s) := by
  obtain ⟨ts, hspells, hts⟩ := h.legible
  refine prints_of_legible (by simp) ⟨_, ?_, recited_orderByItem descending hts s⟩
    (Nat.zero_le _) rfl
  cases descending with
  | true =>
      have hdesc := hspells.joined_right separates_blank (spells_word (isName_text .desc))
      exact hdesc
  | false =>
      have htext : (Phrase.node (.orderByItem false) [t] s).render = t.render ++ "" := rfl
      rw [htext, String.append_empty, optionally, if_neg Bool.false_ne_true, List.append_nil]
      exact hspells

theorem prints_orderByClause {ts : List Phrase} (h : ∀ u ∈ t :: ts, Prints .orderByItem u)
    (s : Source.Span) : Prints .orderByClause (.node .orderByClause (t :: ts) s) := by
  obtain ⟨p, ps, rfl, rfl, hrecited, hspells⟩ := exists_tokens_cons h
  exact prints_of_legible (by simp) ⟨_, (seals_keywords [.order, .by_]).append_spells
    (spells_separated separates_comma hspells), recited_orderByClause hrecited s⟩
    (Nat.zero_le _) rfl

theorem prints_assignment (ht : Prints .reference t) (hu : Prints .sum u) (s : Source.Span) :
    Prints .assignment (.node .assignment [t, u] s) := by
  obtain ⟨ts, hts, htr⟩ := ht.legible
  obtain ⟨us, hus, hur⟩ := hu.legible
  exact prints_of_legible (by simp) ⟨_, hts.joined (separates_comparison .equal) hus,
    recited_assignment htr hur s⟩ (Nat.zero_le _) rfl

/-! ## Queries -/

/-- The phrase of a clause that may be missing, with its tokens. -/
theorem exists_optional {o : Option Phrase} (h : ∀ t ∈ o, Prints c t) :
    ∃ q : Optional, q.map Prod.fst = o ∧ (∀ p ∈ q, Recited c p.2 p.1) ∧ Printed q.toList := by
  cases o with
  | none => exact ⟨none, rfl, by simp, by simp [Printed]⟩
  | some t =>
      obtain ⟨ts, hspells, hts⟩ := (h t rfl).legible
      refine ⟨some (t, ts), rfl, ?_, List.forall_mem_singleton.mpr hspells⟩
      rintro p ⟨⟩
      exact hts

theorem optionalTokens_eq (o : Optional) : optionalTokens o = (o.toList.map Prod.snd).flatten := by
  cases o with
  | none => rfl
  | some p => exact (List.append_nil p.2).symm

theorem optionalPhrases_eq (o : Optional) : optionalPhrases o = o.toList.map Prod.fst := by
  cases o <;> rfl

/-- The clauses behind the select clause. -/
def Body.rest (b : Body) : List (Phrase × List Token) :=
  b.source :: (b.restriction.toList ++ b.grouping.toList ++ b.having.toList)

theorem Body.phrases_eq (b : Body) : b.phrases = b.select.1 :: b.rest.map Prod.fst := by
  simp [Body.phrases, Body.rest, optionalPhrases_eq]

theorem Body.tokens_eq (b : Body) : b.tokens = ((b.select :: b.rest).map Prod.snd).flatten := by
  simp [Body.tokens, Body.rest, optionalTokens_eq]

/-- The clauses of a query print, one behind the other. -/
theorem exists_body {select source : Phrase} {restriction grouping having : Option Phrase}
    (hselect : Prints .selectClause select) (hsource : Prints .fromClause source)
    (hrestriction : ∀ t ∈ restriction, Prints .whereClause t)
    (hgrouping : ∀ t ∈ grouping, Prints .groupByClause t)
    (hhaving : ∀ t ∈ having, Prints .havingClause t) :
    ∃ b : Body, b.Recited ∧ Printed (b.select :: b.rest) ∧ b.phrases =
      select :: source :: (restriction.toList ++ grouping.toList ++ having.toList) := by
  obtain ⟨ts, hts, htr⟩ := hselect.legible
  obtain ⟨us, hus, hur⟩ := hsource.legible
  obtain ⟨r, rfl, hr, hrp⟩ := exists_optional hrestriction
  obtain ⟨g, rfl, hg, hgp⟩ := exists_optional hgrouping
  obtain ⟨h, rfl, hh, hhp⟩ := exists_optional hhaving
  refine ⟨⟨(select, ts), (source, us), r, g, h⟩, ⟨htr, hur, hr, hg, hh⟩, ?_, rfl⟩
  refine List.forall_mem_cons.mpr ⟨hts, List.forall_mem_cons.mpr ⟨hus, fun p hp => ?_⟩⟩
  simp only [List.mem_append] at hp
  rcases hp with (hp | hp) | hp
  · exact hrp p hp
  · exact hgp p hp
  · exact hhp p hp

theorem prints_subselect {b : Body} (h : b.Recited) (hprinted : Printed (b.select :: b.rest))
    (s : Source.Span) : Prints .subselect (.node .subselect b.phrases s) := by
  refine prints_of_legible (by simp) ⟨_, ?_, recited_subselect h s⟩ (Nat.le_refl 8) rfl
  have htokens := spells_blanks hprinted
  rw [← b.phrases_eq, ← b.tokens_eq] at htokens
  exact htokens.enclosed

/-! ## Every derived phrase -/

/-- No trimming in the phrase is misread. -/
def Plain (t : Phrase) : Prop := ∀ u ∈ t.nodes, isMisread u = false

theorem Plain.here (h : Plain t) : isMisread t = false := h t (mem_nodes_self t)

theorem Plain.child {l : Label} {ts : List Phrase} {s : Source.Span} (h : Plain (.node l ts s))
    (ht : t ∈ ts) : Plain t :=
  fun u hu => h u (mem_nodes_of_child ht hu)

/-- What the grammar derives prints as a text that recites it. -/
theorem Derives.prints (h : Derives c t) : Plain t → Prints c t := by
  induction h with
  | name s hx => exact fun _ => prints_name hx s
  | path r s hx hsegments hnames => exact fun _ => prints_path hx hsegments hnames r s
  | literal s hlegal hl => exact fun _ => prints_literal hlegal hl s
  | keyword s hl => exact fun _ => prints_keyword hl s
  | reference _ ih =>
      exact fun h => (ih h).loosen (by simp) (Nat.le_refl 8) fun _ => recited_primary_of_reference
  | subselect _ ih =>
      exact fun h => (ih h).loosen (by simp) (Nat.le_refl 8) fun _ => recited_primary_of_subselect
  | unsigned _ ih =>
      exact fun h => (ih h).loosen (by simp) (by decide : 7 ≤ 8) fun _ => recited_signed_of_primary
  | single _ ih =>
      exact fun h => (ih h).loosen (by simp) (by decide : 6 ≤ 7) fun _ => recited_product_of_signed
  | summand _ ih =>
      exact fun h => (ih h).loosen (by simp) (by decide : 5 ≤ 6) fun _ => recited_sum_of_product
  | operand _ ih =>
      exact fun h => (ih h).loosen (by simp) (by decide : 3 ≤ 5) fun _ => recited_simple_of_sum
  | test _ ih =>
      exact fun h => (ih h).loosen (by simp) (by decide : 3 ≤ 4) fun _ => id
  | simple _ ih =>
      exact fun h => (ih h).loosen (by simp) (Nat.le_refl 3) fun _ => recited_factor_of_simple
  | factor _ ih =>
      exact fun h => (ih h).loosen (by simp) (by decide : 2 ≤ 3) fun _ => recited_term_of_factor
  | term _ ih =>
      exact fun h => (ih h).loosen (by simp) (by decide : 1 ≤ 2) fun _ => recited_condition_of_term
  | item _ ih =>
      exact fun h => (ih h).loosen (by simp) (Nat.zero_le 5) fun _ => recited_selected_of_sum
  | brackets s _ ih => exact fun h => prints_brackets (ih (h.child (by simp))) s
  | call s hf hadmits _ ih =>
      exact fun h => prints_call hf hadmits (fun u hu => ih u hu (h.child hu)) s
  | aggregate f distinct s _ ih =>
      exact fun h => prints_aggregate f distinct (ih (h.child (by simp))) s
  | trim side s _ ih => exact fun h => prints_trim (ih (h.child (by simp))) s h.here
  | trimOff side s _ _ ih₁ ih₂ =>
      exact fun h => prints_trimOff (ih₁ (h.child (by simp))) (ih₂ (h.child (by simp))) s h.here
  | negative s _ ih => exact fun h => prints_negative (ih (h.child (by simp))) s
  | multiply s hop _ _ ih₁ ih₂ =>
      exact fun h => prints_multiply hop (ih₁ (h.child (by simp))) (ih₂ (h.child (by simp))) s
  | add s hop _ _ ih₁ ih₂ =>
      exact fun h => prints_add hop (ih₁ (h.child (by simp))) (ih₂ (h.child (by simp))) s
  | between s _ _ _ ih₁ ih₂ ih₃ =>
      exact fun h => prints_between (ih₁ (h.child (by simp))) (ih₂ (h.child (by simp)))
        (ih₃ (h.child (by simp))) s
  | isIn s _ _ hone ihv ih =>
      exact fun h => prints_isIn (ihv (h.child (by simp)))
        (fun u hu => ih u hu (h.child (List.mem_cons_of_mem _ hu))) hone s
  | isInSubselect s _ ht ihv ih =>
      exact fun h => prints_isInSubselect (ihv (h.child (by simp))) (ih (h.child (by simp)))
        (by cases ht; rfl) s
  | like s _ _ ih₁ ih₂ =>
      exact fun h => prints_like (ih₁ (h.child (by simp))) (ih₂ (h.child (by simp))) s
  | likeEscape s _ _ _ ih₁ ih₂ ih₃ =>
      exact fun h => prints_likeEscape (ih₁ (h.child (by simp))) (ih₂ (h.child (by simp)))
        (ih₃ (h.child (by simp))) s
  | isNull s _ ih =>
      exact fun h => prints_stateTest (Or.inl ⟨rfl, rfl⟩) (ih (h.child (by simp))) s
  | isEmpty s _ ih =>
      exact fun h => prints_stateTest (Or.inr ⟨rfl, rfl⟩) (ih (h.child (by simp))) s
  | memberOf s _ _ ih₁ ih₂ =>
      exact fun h => prints_memberOf (ih₁ (h.child (by simp))) (ih₂ (h.child (by simp))) s
  | compare op s _ _ ih₁ ih₂ =>
      exact fun h => prints_compare op (ih₁ (h.child (by simp))) (ih₂ (h.child (by simp))) s
  | negated s _ ih => exact fun h => prints_negated (ih (h.child (by simp))) s
  | exist s _ ih => exact fun h => prints_exist (ih (h.child (by simp))) s
  | not s _ ih => exact fun h => prints_not (ih (h.child (by simp))) s
  | and s _ ih => exact fun h => prints_and (fun v hv => ih v hv (h.child hv)) s
  | or s _ ih => exact fun h => prints_or (fun v hv => ih v hv (h.child hv)) s
  | newObject s hnames _ ih =>
      exact fun h => prints_newObject hnames (fun u hu => ih u hu (h.child hu)) s
  | selectClause distinct s _ ih =>
      exact fun h => prints_selectClause distinct (fun u hu => ih u hu (h.child hu)) s
  | join outer fetch s _ ih => exact fun h => prints_join outer fetch (ih (h.child (by simp))) s
  | joinNamed outer fetch s r _ ha ih =>
      exact fun h => prints_joinNamed outer fetch (ih (h.child (by simp))) ha s r
  | fromItem s₁ s₂ s he ha _ ih =>
      exact fun h => prints_fromItem he ha (fun j hj => ih j hj (h.child (by simp [hj]))) s₁ s₂ s
  | fromClause s _ ih => exact fun h => prints_fromClause (fun u hu => ih u hu (h.child hu)) s
  | whereClause s _ ih => exact fun h => prints_whereClause (ih (h.child (by simp))) s
  | groupByClause s _ ih =>
      exact fun h => prints_groupByClause (fun u hu => ih u hu (h.child hu)) s
  | havingClause s _ ih => exact fun h => prints_havingClause (ih (h.child (by simp))) s
  | query s _ _ _ _ _ ihselect ihsource ihrestriction ihgrouping ihhaving =>
      intro h
      obtain ⟨b, hb, hprinted, hphrases⟩ := exists_body (ihselect (h.child (by simp)))
        (ihsource (h.child (by simp)))
        (fun t ht => ihrestriction t ht (h.child (by simp [Option.mem_def.mp ht])))
        (fun t ht => ihgrouping t ht (h.child (by simp [Option.mem_def.mp ht])))
        (fun t ht => ihhaving t ht (h.child (by simp [Option.mem_def.mp ht])))
      rw [← hphrases]
      exact prints_subselect hb hprinted s
  | orderByItem descending s _ ih =>
      exact fun h => prints_orderByItem descending (ih (h.child (by simp))) s
  | orderByClause s _ ih =>
      exact fun h => prints_orderByClause (fun u hu => ih u hu (h.child hu)) s
  | assignment s _ _ ih₁ ih₂ =>
      exact fun h => prints_assignment (ih₁ (h.child (by simp))) (ih₂ (h.child (by simp))) s

/-! ## Texts -/

/-- The text of a phrase has tokens that are read as the phrase. -/
def Reprints (reader : Inner → Reader Phrase) (t : Phrase) : Prop :=
  ∃ ts, Spells t.render ts ∧ RecitedText reader ts t

theorem Reprints.read {reader : Inner → Reader Phrase} (h : Reprints reader t) :
    ∃ u, read reader t.render = .ok u ∧ u.same t = true := by
  obtain ⟨ts, hspells, hts⟩ := h
  obtain ⟨u, hread, hlike⟩ := read_of_recited hspells hts
  exact ⟨u, hread, (same_iff u t).mpr hlike⟩

theorem reprints_selectStatement {b : Body} {order : Option Phrase} (h : b.Recited)
    (hprinted : Printed (b.select :: b.rest)) (horder : ∀ t ∈ order, Prints .orderByClause t)
    (s : Source.Span) :
    Reprints statement (.node .selectStatement (b.phrases ++ order.toList) s) := by
  obtain ⟨o, rfl, ho, hop⟩ := exists_optional horder
  refine ⟨b.tokens ++ optionalTokens o, ?_, recited_selectStatement h ho s⟩
  have hall : Printed (b.select :: (b.rest ++ o.toList)) := by
    rw [← List.cons_append]
    intro p hp
    rcases List.mem_append.mp hp with hp | hp
    · exact hprinted p hp
    · exact hop p hp
  have htext : (Phrase.node .selectStatement (b.phrases ++ (o.map Prod.fst).toList) s).render =
      Rendering.sequence " " (pieces (b.phrases ++ optionalPhrases o)) := rfl
  rw [htext, b.phrases_eq, b.tokens_eq, optionalTokens_eq, optionalPhrases_eq, List.cons_append,
    ← List.map_append, ← List.flatten_append, ← List.map_append, List.cons_append]
  exact spells_blanks hall

theorem keywordText_kinds (kinds : List AccessKind) :
    String.join (kinds.map fun k => s!"{k.text} ") = keywordText (kinds.map kindKeyword) := by
  induction kinds with
  | nil => rfl
  | cons k kinds ih =>
      rw [List.map_cons, String.join_cons, ih, List.map_cons, keywordText]
      cases k <;> rfl

/-- The keywords in front of what a rule is about. -/
def grantKeywords (kinds : List AccessKind) : List Keyword :=
  .grant :: (kinds.map kindKeyword ++ [.access, .to])

theorem render_accessRule (kinds : List AccessKind) (ts : List Phrase) (s : Source.Span) :
    (Phrase.node (.accessRule kinds) ts s).render =
      keywordText (grantKeywords kinds) ++ Rendering.sequence " " (pieces ts) := by
  have htext : (Phrase.node (.accessRule kinds) ts s).render =
      "GRANT " ++ String.join (kinds.map fun k => s!"{k.text} ") ++ "ACCESS TO " ++
        Rendering.sequence " " (pieces ts) := rfl
  rw [htext, keywordText_kinds, grantKeywords, keywordText, keywordText_append,
    ← String.append_assoc]
  rfl

section Restricted

variable {e a : String} {restriction : Option Phrase} (he : isName e) (ha : isVariable a)
  (hrestriction : ∀ t ∈ restriction, Prints .whereClause t) (s₁ s₂ s₃ s₄ s : Source.Span)
include he ha hrestriction

theorem reprints_updateStatement {ts : List Phrase} (h : ∀ u ∈ t :: ts, Prints .assignment u) :
    Reprints statement (.node .updateStatement
      (.node .updateClause [.node (.entityName e) [] s₁, .node (.identifier a) [] s₂] s₃
        :: .node .setClause (t :: ts) s₄ :: restriction.toList) s) := by
  obtain ⟨r, rfl, hr, hrp⟩ := exists_optional hrestriction
  obtain ⟨p, ps, rfl, rfl, hrecited, hspells⟩ := exists_tokens_cons h
  refine ⟨_, ?_, recited_updateStatement hr ha hrecited s₁ s₂ s₃ s₄ s⟩
  have hupdate := (seals_keywords [.update]).append_spells
    (spells_range he ha (show Printed [] by simp [Printed]) s₁ s₂)
  have hset := (seals_keywords [.set]).append_spells (spells_separated separates_comma hspells)
  have hall : Printed ((.node .updateClause [.node (.entityName e) [] s₁,
      .node (.identifier a) [] s₂] s₃, _) :: (.node .setClause (p.1 :: ps.map Prod.fst) s₄, _)
      :: r.toList) :=
    List.forall_mem_cons.mpr ⟨hupdate, List.forall_mem_cons.mpr ⟨hset, hrp⟩⟩
  have htokens := spells_blanks hall
  simp only [List.map_cons, List.flatten_cons, ← optionalTokens_eq, ← optionalPhrases_eq]
    at htokens
  exact htokens

theorem reprints_deleteStatement :
    Reprints statement (.node .deleteStatement
      (.node .deleteClause [.node (.entityName e) [] s₁, .node (.identifier a) [] s₂] s₃
        :: restriction.toList) s) := by
  obtain ⟨r, rfl, hr, hrp⟩ := exists_optional hrestriction
  refine ⟨_, ?_, recited_deleteStatement hr ha s₁ s₂ s₃ s⟩
  have hdelete := (seals_keywords [.delete, .from_]).append_spells
    (spells_range he ha (show Printed [] by simp [Printed]) s₁ s₂)
  have hall : Printed ((.node .deleteClause [.node (.entityName e) [] s₁,
      .node (.identifier a) [] s₂] s₃, _) :: r.toList) :=
    List.forall_mem_cons.mpr ⟨hdelete, hrp⟩
  have htokens := spells_blanks hall
  simp only [List.map_cons, List.flatten_cons, ← optionalTokens_eq, ← optionalPhrases_eq]
    at htokens
  exact htokens

/-- A rule is read again, as a rule and as a statement. -/
theorem reprints_accessRule {kinds : List AccessKind} (hkinds : kinds.Nodup) :
    Reprints statement (.node (.accessRule kinds) (.node (.entityName e) [] s₁
        :: .node (.identifier a) [] s₂ :: restriction.toList) s) ∧
      Reprints rule (.node (.accessRule kinds) (.node (.entityName e) [] s₁
        :: .node (.identifier a) [] s₂ :: restriction.toList) s) := by
  obtain ⟨r, rfl, hr, hrp⟩ := exists_optional hrestriction
  have htokens := (seals_keywords (grantKeywords kinds)).append_spells
    (spells_range he ha hrp s₁ s₂)
  have hspells : Spells (Phrase.node (.accessRule kinds) (.node (.entityName e) [] s₁
      :: .node (.identifier a) [] s₂ :: optionalPhrases r) s).render (ruleTokens kinds e a r) := by
    rw [render_accessRule, optionalPhrases_eq]
    simpa [grantKeywords, ruleTokens, optionalTokens_eq, Function.comp_def] using htokens
  exact ⟨⟨_, hspells, recited_statement_of_rule hkinds ha hr s₁ s₂ s⟩,
    ⟨_, hspells, recited_rule hkinds ha hr s₁ s₂ s⟩⟩

end Restricted

theorem DerivesText.reprints (h : DerivesText t) (hplain : Plain t) :
    Reprints statement t ∧ ((∃ kinds, t.label = .accessRule kinds) → Reprints rule t) := by
  cases h with
  | selectStatement s hselect hsource hrestriction hgrouping hhaving horder =>
      obtain ⟨b, hb, hprinted, hphrases⟩ := exists_body (hselect.prints (hplain.child (by simp)))
        (hsource.prints (hplain.child (by simp)))
        (fun t ht => (hrestriction t ht).prints (hplain.child (by simp [Option.mem_def.mp ht])))
        (fun t ht => (hgrouping t ht).prints (hplain.child (by simp [Option.mem_def.mp ht])))
        (fun t ht => (hhaving t ht).prints (hplain.child (by simp [Option.mem_def.mp ht])))
      refine ⟨?_, fun ⟨kinds, hlabel⟩ => by cases hlabel⟩
      rw [← List.cons_append, ← List.cons_append, ← hphrases]
      exact reprints_selectStatement hb hprinted (fun t ht => (horder t ht).prints
        (hplain.child (by simp [Option.mem_def.mp ht]))) s
  | @updateStatement e a assignment assignments restriction s₁ s₂ s₃ s₄ s he ha hassignments
      hrestriction =>
      refine ⟨?_, fun ⟨kinds, hlabel⟩ => by cases hlabel⟩
      have hset : Plain (.node .setClause (assignment :: assignments) s₄) :=
        hplain.child (by simp)
      exact reprints_updateStatement he ha (fun t ht => (hrestriction t ht).prints
        (hplain.child (by simp [Option.mem_def.mp ht]))) s₁ s₂ s₃ s₄ s
        fun u hu => (hassignments u hu).prints (hset.child hu)
  | deleteStatement s₁ s₂ s₃ s he ha hrestriction =>
      refine ⟨?_, fun ⟨kinds, hlabel⟩ => by cases hlabel⟩
      exact reprints_deleteStatement he ha (fun t ht => (hrestriction t ht).prints
        (hplain.child (by simp [Option.mem_def.mp ht]))) s₁ s₂ s₃ s
  | accessRule s₁ s₂ s hkinds he ha hrestriction =>
      have hreprints := reprints_accessRule he ha (fun t ht => (hrestriction t ht).prints
        (hplain.child (by simp [Option.mem_def.mp ht]))) s₁ s₂ s hkinds
      exact ⟨hreprints.1, fun _ => hreprints.2⟩

theorem plain_of_contains (h : t.contains isMisread = false) : Plain t := by
  intro u hu
  exact Bool.eq_false_iff.mpr (List.any_eq_false.mp h u hu)

end Query.Grammar

/-- A statement or a rule is read again from its canonical text, unless a trimming
without a side is printed in front of a word that is read as one. -/
theorem Query.Phrase.read_back {source : String} {t : Phrase}
    (hplain : t.contains Query.Grammar.isMisread = false) :
    (Phrase.ofText source = .ok t → ∃ u, Phrase.ofText t.render = .ok u ∧ u.same t = true) ∧
      (Phrase.ruleOfText source = .ok t →
        ∃ u, Phrase.ruleOfText t.render = .ok u ∧ u.same t = true) := by
  have hplain := Query.Grammar.plain_of_contains hplain
  refine ⟨fun h => ?_, fun h => ?_⟩
  · exact ((Query.Grammar.derivesText_of_ofText h).reprints hplain).1.read
  · obtain ⟨hderives, hkinds⟩ := Query.Grammar.derivesRule_of_ruleOfText h
    exact ((hderives.reprints hplain).2 hkinds).read

theorem Query.Phrase.read_back_trimmed :
    ∃ t, Phrase.ofText
        "select d from Document as d where trim(both from d.title) not like 'a%' and not (+d.n = 1)"
        = .ok t ∧
      t.contains Query.Grammar.isMisread = false ∧
      ∃ u, Phrase.ofText t.render = .ok u ∧ u.same t = true := by
  have hfound : (Phrase.ofText
      "select d from Document as d where trim(both from d.title) not like 'a%' and not (+d.n = 1)"
      ).toOption.any fun t => !t.contains Query.Grammar.isMisread := by decide +kernel
  obtain ⟨t, ht, hplain⟩ := Query.Scope.ok_of_any hfound
  rw [Bool.not_eq_true'] at hplain
  exact ⟨t, ht, hplain, (Query.Phrase.read_back hplain).1 ht⟩

/-- A sign that is dropped in front of `leading` turns the name into a side. -/
theorem Query.Phrase.not_read_back_sided :
    ∃ t u, Phrase.ofText "SELECT d FROM Document d WHERE TRIM(+leading FROM d.title) = 'a'"
        = .ok t ∧ Phrase.ofText t.render = .ok u ∧ u.same t = false := by
  have hfound : (Phrase.ofText
      "SELECT d FROM Document d WHERE TRIM(+leading FROM d.title) = 'a'").toOption.any fun t =>
        (Phrase.ofText t.render).toOption.any fun u => !u.same t := by decide +kernel
  obtain ⟨t, ht, hfound⟩ := Query.Scope.ok_of_any hfound
  obtain ⟨u, hu, hsame⟩ := Query.Scope.ok_of_any hfound
  exact ⟨t, u, ht, hu, Bool.not_eq_true' _ ▸ hsame⟩

end RowGuard
