import RowGuard.Proofs.Transcription

/-!
# Placeholders

The parameters of a phrase, named and positional, hold places for values from outside.
In the text of a phrase their tokens stand in the order in which the parameters stand in
the phrase, and no other token is a parameter.  Nothing is assumed about how the text
will be read, so this also holds of a trimming that would be misread and of operands that
are printed between brackets.
-/

namespace RowGuard

open Query (ArithmeticOperator Keyword Label Phrase Seals Separates Spells Token TrimSide isName
  isName_text keywordText seals_empty seals_keywords seals_minus separates_blank separates_comma
  separates_keywords sequence_pieces spells_word)
open Query.Phrase Query.Rendering

namespace Query

/-- Parameters of either sort. -/
def Label.isPlaceholder : Label → Bool
  | .namedParameter _ | .positionalParameter _ => true
  | _ => false

/-- The parameter that a token stands for, if it stands for one. -/
def Token.placeholder? : Token → Option Label
  | .named name => some (.namedParameter name)
  | .positional index => some (.positionalParameter index)
  | _ => none

/-- The parameters among some tokens, in their order. -/
def placeholdersOf (ts : List Token) : List Label := ts.filterMap Token.placeholder?

@[simp] theorem placeholdersOf_nil : placeholdersOf [] = [] := rfl

@[simp] theorem placeholdersOf_append (ts us : List Token) :
    placeholdersOf (ts ++ us) = placeholdersOf ts ++ placeholdersOf us :=
  List.filterMap_append

@[simp] theorem placeholdersOf_cons (t : Token) (ts : List Token) :
    placeholdersOf (t :: ts) = t.placeholder?.toList ++ placeholdersOf ts := by
  cases h : t.placeholder? <;> simp [placeholdersOf, h]

@[simp] theorem placeholdersOf_keywords (ks : List Keyword) :
    placeholdersOf (ks.map Keyword.token) = [] := by
  induction ks with
  | nil => rfl
  | cons k ks ih => exact ih

namespace Phrase

/-- The parameters of a phrase, in the order of their places. -/
def placeholders (t : Phrase) : List Label := (t.nodes.map label).filter Label.isPlaceholder

theorem visitAll_eq_flatMap (ts : List Phrase) :
    visitAll (fun _ => true) ts = ts.flatMap nodes := by
  induction ts with
  | nil => rfl
  | cons t ts ih => rw [visitAll, ih, List.flatMap_cons, nodes]

variable {l : Label} {t : Phrase} {ts : List Phrase} {s : Source.Span}

theorem placeholders_node : (Phrase.node l ts s).placeholders =
    (if l.isPlaceholder then [l] else []) ++ ts.flatMap placeholders := by
  have hchildren : ((ts.flatMap nodes).map label).filter Label.isPlaceholder =
      ts.flatMap placeholders := by
    rw [List.map_flatMap, List.filter_flatMap]
    rfl
  rw [placeholders, nodes, visit, if_pos rfl, visitAll_eq_flatMap, List.map_cons,
    List.filter_cons, hchildren]
  change (if l.isPlaceholder then l :: _ else _) = _
  cases l.isPlaceholder <;> rfl

/-- A node that is no parameter has those of its children. -/
theorem placeholders_of_not (hl : l.isPlaceholder = false) :
    (Phrase.node l ts s).placeholders = ts.flatMap placeholders := by
  rw [placeholders_node, hl]
  rfl

theorem mem_placeholders : l ∈ t.placeholders ↔ l.isPlaceholder ∧ ∃ n ∈ t.nodes, n.label = l := by
  rw [placeholders, List.mem_filter, List.mem_map, and_comm]

/-- What is collected from the nodes with one label is found where the label is. -/
theorem mem_filterMap_nodes {α : Type} {a : α} {f : Phrase → Option α} (hl : l.isPlaceholder)
    (hf : ∀ n, f n = some a ↔ n.label = l) : a ∈ t.nodes.filterMap f ↔ l ∈ t.placeholders := by
  rw [mem_placeholders, List.mem_filterMap, and_iff_right hl]
  exact exists_congr fun n => and_congr_right fun _ => hf n

theorem mem_namedParameters {name : String} :
    name ∈ t.namedParameters ↔ Label.namedParameter name ∈ t.placeholders :=
  mem_filterMap_nodes rfl fun n => by cases n.label <;> simp

theorem mem_positionalParameters {index : Nat} :
    index ∈ t.positionalParameters ↔ Label.positionalParameter index ∈ t.placeholders :=
  mem_filterMap_nodes rfl fun n => by cases n.label <;> simp

end Phrase

/-! ## Texts and their parameters -/

/-- The text is one of tokens with these parameters. -/
def Mentions (s : String) (ps : List Label) : Prop := ∃ ts, Spells s ts ∧ placeholdersOf ts = ps

/-- The text can stand in front of any other and has no parameter. -/
def Introduces (s : String) : Prop := ∃ ts, Seals s ts ∧ placeholdersOf ts = []

/-- The text keeps the tokens around it apart and has no parameter. -/
def Divides (s : String) : Prop := ∃ ts, Separates s ts ∧ placeholdersOf ts = []

variable {s u w sep : String} {ps qs : List Label}

theorem introduces_keywords (ks : List Keyword) : Introduces (keywordText ks) :=
  ⟨_, seals_keywords ks, placeholdersOf_keywords ks⟩

theorem divides_keywords (ks : List Keyword) : Divides (" " ++ keywordText ks) :=
  ⟨_, separates_keywords ks, placeholdersOf_keywords ks⟩

theorem divides_comma : Divides ", " := ⟨_, separates_comma, rfl⟩

theorem divides_blank : Divides " " := ⟨_, separates_blank, rfl⟩

theorem mentions_word (hw : isName w) : Mentions w [] := ⟨_, spells_word hw, rfl⟩

theorem Introduces.mentions (h : Introduces s) (h' : Mentions u ps) : Mentions (s ++ u) ps := by
  obtain ⟨ts, hseals, hts⟩ := h
  obtain ⟨us, hspells, hus⟩ := h'
  exact ⟨ts ++ us, hseals.append_spells hspells, by rw [placeholdersOf_append, hts, hus]; rfl⟩

theorem Mentions.joined (h : Mentions s ps) (hsep : Divides sep) (h' : Mentions u qs) :
    Mentions (s ++ sep ++ u) (ps ++ qs) := by
  obtain ⟨ts, hts, hps⟩ := h
  obtain ⟨vs, hvs, hsilent⟩ := hsep
  obtain ⟨us, hus, hqs⟩ := h'
  refine ⟨ts ++ (vs ++ us), hts.joined hvs hus, ?_⟩
  rw [placeholdersOf_append, placeholdersOf_append, hps, hsilent, hqs, List.nil_append]

theorem Mentions.enclosed (h : Mentions s ps) : Mentions ("(" ++ s ++ ")") ps := by
  obtain ⟨ts, hts, hps⟩ := h
  refine ⟨_, hts.enclosed, ?_⟩
  rw [placeholdersOf_cons, placeholdersOf_append, hps]
  exact List.append_nil ps

theorem Mentions.called (hw : isName w) (h : Mentions s ps) :
    Mentions (w ++ "(" ++ s ++ ")") ps := by
  obtain ⟨ts, hts, hps⟩ := h
  refine ⟨_, hts.called hw, ?_⟩
  rw [placeholdersOf_cons, placeholdersOf_cons, placeholdersOf_append, hps]
  exact List.append_nil ps

/-- Phrases one behind the other, whatever each is written as. -/
theorem mentions_intercalate (hsep : Divides sep) {write : Phrase → String} {t : Phrase}
    {ts : List Phrase} (h : ∀ u ∈ t :: ts, Mentions (write u) u.placeholders) :
    Mentions (sep.intercalate ((t :: ts).map write)) ((t :: ts).flatMap placeholders) := by
  induction ts generalizing t with
  | nil => simpa using h t (by simp)
  | cons v ts ih =>
      have hrest := ih fun u hu => h u (List.mem_cons_of_mem t hu)
      have hfirst := (h t (by simp)).joined hsep hrest
      rw [List.map_cons] at hfirst
      rw [List.map_cons, List.map_cons, String.intercalate_cons_cons, List.flatMap_cons]
      exact hfirst

end Query

namespace Query.Grammar

variable {c : Category} {l : Label} {t u v : Phrase} {ts : List Phrase} {s : Source.Span}

/-- Both forms of a phrase mention its parameters. -/
structure Shows (t : Phrase) : Prop where
  text : Mentions t.render t.placeholders
  negation : ∀ s ∈ (piece t).negated, Mentions s t.placeholders

theorem shows_of_text (hl : isPredicate t.label = false) (h : Mentions t.render t.placeholders) :
    Shows t := by
  refine ⟨h, fun text htext => ?_⟩
  rw [negated_eq_none hl] at htext
  cases htext

/-- Brackets around an operand change nothing. -/
theorem Shows.operand (h : Shows t) (least : Nat) :
    Mentions (operand least (piece t)) t.placeholders := by
  unfold Rendering.operand
  split
  · exact h.text.enclosed
  · exact h.text

theorem mentions_sequence {sep : String} (hsep : Divides sep) (h : ∀ u ∈ t :: ts, Shows u) :
    Mentions (Rendering.sequence sep (pieces (t :: ts))) ((t :: ts).flatMap placeholders) := by
  rw [sequence_pieces]
  exact mentions_intercalate hsep fun u hu => (h u hu).text

theorem mentions_nary {least : Nat} {sign : String} (hsep : Divides sign)
    (h : ∀ u ∈ t :: ts, Shows u) :
    Mentions (nary least sign (pieces (t :: ts))) ((t :: ts).flatMap placeholders) := by
  rw [nary, pieces_eq_map, List.map_map]
  exact mentions_intercalate hsep fun u hu => (h u hu).operand least

/-- A list of phrases behind some keywords. -/
theorem shows_list {sep : String} (ks : List Keyword) (hsep : Divides sep)
    (h : ∀ u ∈ t :: ts, Shows u) (hpredicate : isPredicate l = false)
    (hl : l.isPlaceholder = false) (htext : (Phrase.node l (t :: ts) s).render =
      keywordText ks ++ Rendering.sequence sep (pieces (t :: ts))) :
    Shows (.node l (t :: ts) s) := by
  refine shows_of_text hpredicate ?_
  rw [htext, placeholders_of_not hl]
  exact (introduces_keywords ks).mentions (mentions_sequence hsep h)

/-- Phrases behind one another, without any keyword of their own. -/
theorem shows_sequence {sep : String} (hsep : Divides sep) (h : ∀ u ∈ t :: ts, Shows u)
    (hpredicate : isPredicate l = false) (hl : l.isPlaceholder = false)
    (htext : (Phrase.node l (t :: ts) s).render = Rendering.sequence sep (pieces (t :: ts))) :
    Shows (.node l (t :: ts) s) :=
  shows_list [] hsep h hpredicate hl (htext.trans String.empty_append.symm)

/-- One phrase behind some keywords. -/
theorem shows_one (ks : List Keyword) (h : Shows t) (hpredicate : isPredicate l = false)
    (hl : l.isPlaceholder = false)
    (htext : (Phrase.node l [t] s).render = keywordText ks ++ t.render) :
    Shows (.node l [t] s) := by
  refine shows_of_text hpredicate ?_
  rw [htext, placeholders_of_not hl, List.flatMap_singleton]
  exact (introduces_keywords ks).mentions h.text

/-! ## Names and operands -/

theorem shows_word {w : String} (hw : isName w) (hpredicate : isPredicate l = false)
    (hl : l.isPlaceholder = false) (htext : (Phrase.node l [] s).render = w) :
    Shows (.node l [] s) := by
  refine shows_of_text hpredicate ?_
  rw [htext, placeholders_of_not hl]
  exact mentions_word hw

theorem placeholders_segments {segments : List Phrase} {ws : List String}
    (h : AreSegments segments ws) : segments.flatMap placeholders = [] := by
  induction h with
  | nil => rfl
  | cons _ _ _ ih => rw [List.flatMap_cons, ih, placeholders_of_not rfl]; rfl

theorem placeholders_pointed (ws : List String) : placeholdersOf (pointed ws) = [] := by
  induction ws with
  | nil => rfl
  | cons w ws ih => exact ih

theorem shows_path {x w : String} {ws : List String} {segments : List Phrase} (hx : isVariable x)
    (h : AreSegments segments (w :: ws)) (hnames : ∀ v ∈ w :: ws, isName v) (r s : Source.Span) :
    Shows (.node .path (.node (.identifier x) [] r :: segments) s) := by
  refine shows_of_text rfl ⟨.word x :: pointed (w :: ws), ?_, ?_⟩
  · have htext : (Phrase.node .path (.node (.identifier x) [] r :: segments) s).render =
        ".".intercalate (x :: w :: ws) := by
      rw [← render_segments h]
      exact sequence_pieces "." (.node (.identifier x) [] r :: segments)
    rw [htext]
    exact spells_pointed (isName_of_isVariable hx) hnames
  · rw [placeholders_of_not rfl, List.flatMap_cons, placeholders_segments h,
      placeholders_of_not rfl, placeholdersOf_cons, placeholders_pointed]
    rfl

/-- Literals and parameters, the only tokens that stand for parameters among them. -/
theorem shows_literal {token : Token} (hlegal : token.Legal) (hl : literalLabel? token = some l)
    (s : Source.Span) : Shows (.node l [] s) := by
  have hpredicate : isPredicate l = false := by cases token <;> cases hl <;> rfl
  refine shows_of_text hpredicate ⟨[token], ?_, ?_⟩
  · have htext : (Phrase.node l [] s).render = token.text := by
      cases token <;> cases hl <;> rfl
    rw [htext]
    exact hlegal.spells
  · cases token <;> cases hl <;> rfl

theorem shows_keyword {k : Keyword} (hl : keywordLabel? k = some l) (s : Source.Span) :
    Shows (.node l [] s) := by
  have hword : isPredicate l = false ∧ l.isPlaceholder = false ∧
      (Phrase.node l [] s).render = k.text := by
    cases k <;> first
      | exact absurd hl.symm (Option.some_ne_none l)
      | cases hl; exact ⟨rfl, rfl, rfl⟩
  exact shows_word (isName_text k) hword.1 hword.2.1 hword.2.2

theorem shows_enclosed (h : ∀ u ∈ t :: ts, Shows u) (hpredicate : isPredicate l = false)
    (hl : l.isPlaceholder = false) (htext : (Phrase.node l (t :: ts) s).render =
      "(" ++ Rendering.sequence " " (pieces (t :: ts)) ++ ")") : Shows (.node l (t :: ts) s) := by
  refine shows_of_text hpredicate ?_
  rw [htext, placeholders_of_not hl]
  exact (mentions_sequence divides_blank h).enclosed

theorem isPlaceholder_signature {name : String} {f : Signature} (hf : signature? name = some f) :
    f.label.isPlaceholder = false := by
  unfold signature? at hf
  split at hf <;> cases hf <;> rfl

theorem shows_call {name : String} {f : Signature} (hf : signature? name = some f)
    (hadmits : f.admits ts.length) (h : ∀ t ∈ ts, Shows t) (s : Source.Span) :
    Shows (.node f.label ts s) := by
  obtain ⟨hname, -, hpredicate, hzero⟩ := written_of_signature? hf
  cases ts with
  | nil => exact absurd hadmits (by rw [List.length_nil, hzero]; exact Bool.false_ne_true)
  | cons t ts =>
      refine shows_of_text hpredicate ?_
      rw [render_call hf, placeholders_of_not (isPlaceholder_signature hf)]
      exact (mentions_sequence divides_comma h).called hname

theorem shows_aggregate (f : Query.Aggregate) (distinct : Bool) (h : Shows t) (s : Source.Span) :
    Shows (.node (.aggregate f distinct) [t] s) := by
  have hname : isName f.text := by cases f <;> decide +kernel
  have hbody : Mentions (keywordText (if distinct then [.distinct] else []) ++ t.render)
      t.placeholders := (introduces_keywords _).mentions h.text
  refine shows_of_text rfl ?_
  rw [placeholders_of_not rfl, List.flatMap_singleton]
  have hcall := hbody.called hname
  rw [← String.append_assoc] at hcall
  cases distinct <;> exact hcall

theorem shows_negative (h : Shows t) (s : Source.Span) : Shows (.node .negative [t] s) := by
  refine shows_of_text rfl ?_
  rw [placeholders_of_not rfl, List.flatMap_singleton]
  exact Introduces.mentions ⟨_, seals_minus, rfl⟩ (h.operand 7)

/-- Two operands with a sign between them. -/
theorem shows_binary {sign : String} {m n : Nat} (hsign : Divides sign) (ht : Shows t)
    (hu : Shows u) (hpredicate : isPredicate l = false) (hl : l.isPlaceholder = false)
    (htext : (Phrase.node l [t, u] s).render =
      operand m (piece t) ++ sign ++ operand n (piece u)) : Shows (.node l [t, u] s) := by
  refine shows_of_text hpredicate ?_
  rw [htext, placeholders_of_not hl, List.flatMap_cons, List.flatMap_singleton]
  exact (ht.operand m).joined hsign (hu.operand n)

theorem shows_arithmetic (op : ArithmeticOperator) (ht : Shows t) (hu : Shows u)
    (s : Source.Span) : Shows (.node (.arithmetic op) [t, u] s) :=
  shows_binary ⟨_, separates_arithmetic op, by cases op <;> rfl⟩ ht hu rfl rfl rfl

theorem shows_trim (side : Option TrimSide) (h : Shows t) (s : Source.Span) :
    Shows (.node (.trim side) [t] s) := by
  refine shows_of_text rfl ?_
  rw [placeholders_of_not rfl, List.flatMap_singleton]
  cases side with
  | none =>
      rw [render_trim]
      exact h.text.called isName_trim
  | some side =>
      rw [render_trimSide]
      have hfrom := (introduces_keywords [.from_]).mentions h.text
      exact ((introduces_keywords [sideKeyword side]).mentions hfrom).called isName_trim

theorem shows_trimOff (side : Option TrimSide) (ht : Shows t) (hu : Shows u) (s : Source.Span) :
    Shows (.node (.trim side) [t, u] s) := by
  refine shows_of_text rfl ?_
  rw [render_trimOff, placeholders_of_not rfl, List.flatMap_cons, List.flatMap_singleton]
  have hbody := ht.text.joined (divides_keywords [.from_]) hu.text
  exact ((introduces_keywords (sideKeywords side)).mentions hbody).called isName_trim

/-! ## Tests -/

/-- A test shows its parameters if what stands behind its operand does, negated or not. -/
theorem shows_test (ks : List Keyword) (ts : List Phrase) (tail : String)
    (hl : isPredicate l = true) (hv : Shows v) (htail : Mentions tail (ts.flatMap placeholders))
    (htext : ∀ b, predicateTail l (negationWord b) (pieces ts) =
      " " ++ keywordText (testKeywords b ks) ++ tail) : Shows (.node l (v :: ts) s) := by
  have hplaceholder : l.isPlaceholder = false := by cases l <;> first | rfl | cases hl
  have hboth : ∀ b, Mentions (Rendering.predicate l (negationWord b) (pieces (v :: ts)))
      (Phrase.node l (v :: ts) s).placeholders := by
    intro b
    rw [placeholders_of_not hplaceholder, List.flatMap_cons, pieces, Rendering.predicate, htext b,
      ← String.append_assoc]
    exact (hv.operand 5).joined (divides_keywords (testKeywords b ks)) htail
  refine ⟨?_, fun text htext => ?_⟩
  · have hrender : (Phrase.node l (v :: ts) s).render =
        Rendering.predicate l "" (pieces (v :: ts)) := by
      cases l <;> first | rfl | cases hl
    rw [hrender]
    exact hboth false
  · have hnegated : (piece (.node l (v :: ts) s)).negated =
        some (Rendering.predicate l "NOT " (pieces (v :: ts))) := if_pos hl
    rw [hnegated] at htext
    cases htext
    exact hboth true

theorem shows_between (hv : Shows v) (ht : Shows t) (hu : Shows u) (s : Source.Span) :
    Shows (.node .between [v, t, u] s) := by
  have htail := (ht.operand 5).joined (divides_keywords [.and]) (hu.operand 5)
  refine shows_test [.between] [t, u] (operand 5 (piece t) ++ (" " ++ keywordText [.and]) ++
    operand 5 (piece u)) rfl hv ?_ fun b => by cases b <;> rfl
  simpa only [List.flatMap_cons, List.flatMap_nil, List.append_nil] using htail

theorem shows_isIn (hv : Shows v) (h : ∀ u ∈ t :: ts, Shows u)
    (hone : ts = [] → t.label ≠ .subselect) (s : Source.Span) :
    Shows (.node .isIn (v :: t :: ts) s) := by
  have hlist := (mentions_sequence divides_comma h).enclosed
  refine shows_test [.in_] (t :: ts) _ rfl hv hlist fun b => ?_
  have hitems : Rendering.items (pieces (t :: ts)) =
      "(" ++ Rendering.sequence ", " (pieces (t :: ts)) ++ ")" := by
    cases ts with
    | nil =>
        have hlabel : (piece t).label ≠ .subselect := by
          have hne := hone rfl
          cases t with
          | node l cs s => exact hne
        exact if_neg hlabel
    | cons u ts => rfl
  rw [← hitems]
  cases b <;> rfl

theorem shows_isInSubselect (hv : Shows v) (ht : Shows t) (hlabel : t.label = .subselect)
    (s : Source.Span) : Shows (.node .isIn [v, t] s) := by
  refine shows_test [.in_] [t] t.render rfl hv ?_ fun b => ?_
  · simpa using ht.text
  · have hitems : Rendering.items (pieces [t]) = t.render := by
      cases t with
      | node l cs s => exact if_pos hlabel
    rw [← hitems]
    cases b <;> rfl

theorem shows_like (hv : Shows v) (hu : Shows u) (s : Source.Span) :
    Shows (.node .like [v, u] s) := by
  refine shows_test [.like] [u] (operand 5 (piece u)) rfl hv ?_ fun b => ?_
  · simpa using hu.operand 5
  · rw [← String.append_empty (s := operand 5 (piece u))]
    cases b <;> rfl

theorem shows_likeEscape {e : Phrase} (hv : Shows v) (hu : Shows u) (he : Shows e)
    (s : Source.Span) : Shows (.node .like [v, u, e] s) := by
  have htail := (hu.operand 5).joined (divides_keywords [.escape]) he.text
  rw [String.append_assoc] at htail
  refine shows_test [.like] [u, e] (operand 5 (piece u) ++ (" " ++ keywordText [.escape] ++
    e.render)) rfl hv ?_ fun b => by cases b <;> rfl
  simpa only [List.flatMap_cons, List.flatMap_nil, List.append_nil] using htail

theorem shows_memberOf (hv : Shows v) (hu : Shows u) (s : Source.Span) :
    Shows (.node .memberOf [v, u] s) := by
  refine shows_test [.member, .of_] [u] u.render rfl hv ?_ fun b => by
    cases b <;> rfl
  simpa using hu.text

/-- Tests whose last word is a keyword. -/
theorem shows_stateTest {k : Keyword} (hlabel : (k = .null ∧ l = .isNull) ∨
    (k = .empty ∧ l = .isEmpty)) (hv : Shows v) (s : Source.Span) : Shows (.node l [v] s) := by
  have htext : ∀ b, Rendering.predicate l (negationWord b) (pieces [v]) =
      operand 5 (piece v) ++ (" " ++ keywordText (.is :: testKeywords b [])) ++ k.text := by
    intro b
    rw [String.append_assoc]
    rcases hlabel with ⟨rfl, rfl⟩ | ⟨rfl, rfl⟩ <;> cases b <;> rfl
  have hboth : ∀ b, Mentions (Rendering.predicate l (negationWord b) (pieces [v]))
      (Phrase.node l [v] s).placeholders := by
    intro b
    have hplaceholder : l.isPlaceholder = false := by
      rcases hlabel with ⟨-, rfl⟩ | ⟨-, rfl⟩ <;> rfl
    rw [htext, placeholders_of_not hplaceholder, List.flatMap_singleton,
      ← List.append_nil v.placeholders]
    exact (hv.operand 5).joined (divides_keywords _) (mentions_word (isName_text k))
  refine ⟨?_, fun text htext => ?_⟩
  · rcases hlabel with ⟨-, rfl⟩ | ⟨-, rfl⟩ <;> exact hboth false
  · rcases hlabel with ⟨-, rfl⟩ | ⟨-, rfl⟩ <;> cases htext <;> exact hboth true

/-! ## Conditions -/

theorem shows_negated (h : Shows t) (s : Source.Span) : Shows (.node .not [t] s) := by
  refine shows_of_text rfl ?_
  have hrender : (Phrase.node .not [t] s).render =
    (piece t).negated.getD ("NOT " ++ operand 3 (piece t)) := rfl
  rw [hrender, placeholders_of_not rfl, List.flatMap_singleton]
  cases hnegated : (piece t).negated with
  | none => exact (introduces_keywords [.not]).mentions (h.operand 3)
  | some text => exact h.negation text hnegated

theorem shows_connected {least : Nat} {k : Keyword} (h : ∀ u ∈ t :: ts, Shows u)
    (hpredicate : isPredicate l = false) (hl : l.isPlaceholder = false)
    (htext : (Phrase.node l (t :: ts) s).render =
      nary least (" " ++ keywordText [k]) (pieces (t :: ts))) : Shows (.node l (t :: ts) s) := by
  refine shows_of_text hpredicate ?_
  rw [htext, placeholders_of_not hl]
  exact mentions_nary (divides_keywords [k]) h

theorem shows_newObject {w : String} {ws : List String} (hnames : ∀ v ∈ w :: ws, isName v)
    (h : ∀ u ∈ t :: ts, Shows u) (s : Source.Span) :
    Shows (.node (.newObject (Text.Dotted.join (w :: ws))) (t :: ts) s) := by
  refine shows_of_text rfl ?_
  obtain ⟨us, hus, hps⟩ := mentions_sequence divides_comma h
  have hopening := seals_pointed_opening (hnames w (by simp))
    fun v hv => hnames v (List.mem_cons_of_mem w hv)
  have hbody := hopening.append_spells (hus.append Query.separates_closing).spells
  rw [← String.append_assoc] at hbody
  refine ⟨_, (seals_keywords [.new]).append_spells hbody, ?_⟩
  rw [placeholders_of_not rfl, ← hps]
  simp [placeholders_pointed, Token.placeholder?, Keyword.token]

theorem shows_assignment (ht : Shows t) (hu : Shows u) (s : Source.Span) :
    Shows (.node .assignment [t, u] s) :=
  shows_sequence ⟨_, separates_comparison .equal, rfl⟩ (by simp [ht, hu]) rfl rfl rfl

theorem shows_orderByItem (descending : Bool) (h : Shows t) (s : Source.Span) :
    Shows (.node (.orderByItem descending) [t] s) := by
  refine shows_of_text rfl ?_
  rw [placeholders_of_not rfl, List.flatMap_singleton]
  cases descending with
  | true =>
      have htext : (Phrase.node (.orderByItem true) [t] s).render =
          t.render ++ " " ++ Keyword.text .desc := by
        rw [String.append_assoc]
        rfl
      rw [htext, ← List.append_nil t.placeholders]
      exact h.text.joined divides_blank (mentions_word (isName_text .desc))
  | false =>
      have htext : (Phrase.node (.orderByItem false) [t] s).render = t.render ++ "" := rfl
      rw [htext, String.append_empty]
      exact h.text

/-- Clauses that may be missing. -/
theorem shows_optional {o : Option Phrase} (h : ∀ t ∈ o, Shows t) : ∀ t ∈ o.toList, Shows t :=
  fun t ht => h t (Option.mem_toList.mp ht)

/-- An entity name and an alias, and what comes behind them. -/
theorem shows_range {e a : String} (he : isName e) (ha : isVariable a) (h : ∀ u ∈ ts, Shows u)
    (s₁ s₂ : Source.Span) :
    ∀ u ∈ Phrase.node (.entityName e) [] s₁ :: .node (.identifier a) [] s₂ :: ts, Shows u :=
  List.forall_mem_cons.mpr ⟨shows_word he rfl rfl rfl,
    List.forall_mem_cons.mpr ⟨shows_word (isName_of_isVariable ha) rfl rfl rfl, h⟩⟩

/-- What the grammar derives is printed with its parameters, one case for each production. -/
theorem Derives.shows (h : Derives c t) : Shows t := by
  induction h with
  | name s hx => exact shows_word (isName_of_isVariable hx) rfl rfl rfl
  | path r s hx hsegments hnames => exact shows_path hx hsegments hnames r s
  | literal s hlegal hl => exact shows_literal hlegal hl s
  | keyword s hl => exact shows_keyword hl s
  | reference _ ih | subselect _ ih | unsigned _ ih | single _ ih | summand _ ih | operand _ ih
  | test _ ih | simple _ ih | factor _ ih | term _ ih | item _ ih => exact ih
  | brackets s _ ih => exact shows_enclosed (by simpa using ih) rfl rfl rfl
  | call s hf hadmits _ ih => exact shows_call hf hadmits ih s
  | aggregate f distinct s _ ih => exact shows_aggregate f distinct ih s
  | trim side s _ ih => exact shows_trim side ih s
  | trimOff side s _ _ ih₁ ih₂ => exact shows_trimOff side ih₁ ih₂ s
  | negative s _ ih => exact shows_negative ih s
  | multiply s _ _ _ ih₁ ih₂ | add s _ _ _ ih₁ ih₂ => exact shows_arithmetic _ ih₁ ih₂ s
  | between s _ _ _ ih₁ ih₂ ih₃ => exact shows_between ih₁ ih₂ ih₃ s
  | isIn s _ _ hone ihv ih => exact shows_isIn ihv ih hone s
  | isInSubselect s _ ht ihv ih => exact shows_isInSubselect ihv ih (by cases ht; rfl) s
  | like s _ _ ih₁ ih₂ => exact shows_like ih₁ ih₂ s
  | likeEscape s _ _ _ ih₁ ih₂ ih₃ => exact shows_likeEscape ih₁ ih₂ ih₃ s
  | isNull s _ ih => exact shows_stateTest (Or.inl ⟨rfl, rfl⟩) ih s
  | isEmpty s _ ih => exact shows_stateTest (Or.inr ⟨rfl, rfl⟩) ih s
  | memberOf s _ _ ih₁ ih₂ => exact shows_memberOf ih₁ ih₂ s
  | compare op s _ _ ih₁ ih₂ =>
      exact shows_binary ⟨_, separates_comparison op, by cases op <;> rfl⟩ ih₁ ih₂ rfl rfl rfl
  | negated s _ ih | not s _ ih => exact shows_negated ih s
  | exist s _ ih => exact shows_one [.exists_] ih rfl rfl rfl
  | and s _ ih => exact shows_connected (k := .and) ih rfl rfl rfl
  | or s _ ih => exact shows_connected (k := .or) ih rfl rfl rfl
  | newObject s hnames _ ih => exact shows_newObject hnames ih s
  | selectClause distinct s _ ih =>
      cases distinct with
      | true => exact shows_list [.select, .distinct] divides_comma ih rfl rfl rfl
      | false => exact shows_list [.select] divides_comma ih rfl rfl rfl
  | join outer fetch s _ ih =>
      exact shows_list (joinKeywords outer fetch) divides_blank (by simpa using ih) rfl rfl
        (render_join outer fetch _ s)
  | joinNamed outer fetch s r _ ha ih =>
      have hname : Shows (.node (.identifier _) [] r) :=
        shows_word (isName_of_isVariable ha) rfl rfl rfl
      exact shows_list (joinKeywords outer fetch) divides_blank (by simp [ih, hname]) rfl rfl
        (render_join outer fetch _ s)
  | fromItem s₁ s₂ s he ha _ ih =>
      exact shows_sequence divides_blank (shows_range he ha ih s₁ s₂) rfl rfl rfl
  | fromClause s _ ih => exact shows_list [.from_] divides_comma ih rfl rfl rfl
  | whereClause s _ ih => exact shows_one [.where_] ih rfl rfl rfl
  | groupByClause s _ ih => exact shows_list [.group, .by_] divides_comma ih rfl rfl rfl
  | havingClause s _ ih => exact shows_one [.having] ih rfl rfl rfl
  | query s _ _ _ _ _ ihselect ihsource ihrestriction ihgrouping ihhaving =>
      refine shows_enclosed ?_ rfl rfl rfl
      simp only [List.forall_mem_cons, List.forall_mem_append]
      exact ⟨ihselect, ihsource, ⟨shows_optional ihrestriction, shows_optional ihgrouping⟩,
        shows_optional ihhaving⟩
  | orderByItem descending s _ ih => exact shows_orderByItem descending ih s
  | orderByClause s _ ih => exact shows_list [.order, .by_] divides_comma ih rfl rfl rfl
  | assignment s _ _ ih₁ ih₂ => exact shows_assignment ih₁ ih₂ s

/-- The same for the phrases of whole texts. -/
theorem DerivesText.shows (h : DerivesText t) : Shows t := by
  cases h with
  | selectStatement s hselect hsource hrestriction hgrouping hhaving horder =>
      refine shows_sequence divides_blank ?_ rfl rfl rfl
      simp only [List.forall_mem_cons, List.forall_mem_append]
      exact ⟨hselect.shows, hsource.shows, ⟨⟨shows_optional fun t ht => (hrestriction t ht).shows,
        shows_optional fun t ht => (hgrouping t ht).shows⟩,
        shows_optional fun t ht => (hhaving t ht).shows⟩,
        shows_optional fun t ht => (horder t ht).shows⟩
  | updateStatement s₁ s₂ s₃ s₄ s he ha hassignments hrestriction =>
      refine shows_sequence divides_blank ?_ rfl rfl rfl
      simp only [List.forall_mem_cons]
      exact ⟨shows_list [.update] divides_blank (shows_range he ha (by simp) s₁ s₂) rfl rfl rfl,
        shows_list [.set] divides_comma (fun u hu => (hassignments u hu).shows) rfl rfl rfl,
        shows_optional fun t ht => (hrestriction t ht).shows⟩
  | deleteStatement s₁ s₂ s₃ s he ha hrestriction =>
      refine shows_sequence divides_blank ?_ rfl rfl rfl
      simp only [List.forall_mem_cons]
      exact ⟨shows_list [.delete, .from_] divides_blank (shows_range he ha (by simp) s₁ s₂)
        rfl rfl rfl, shows_optional fun t ht => (hrestriction t ht).shows⟩
  | accessRule s₁ s₂ s _ he ha hrestriction =>
      exact shows_list (grantKeywords _) divides_blank (shows_range he ha
        (shows_optional fun t ht => (hrestriction t ht).shows) s₁ s₂) rfl rfl
        (render_accessRule _ _ s)

end Query.Grammar

end RowGuard
