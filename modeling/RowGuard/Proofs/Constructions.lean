import RowGuard.Proofs.Groupings

/-!
# Texts of conditions that were built

A condition that was put together and not read has no brackets of its own, and its operands need
not be of the category that their place asks for.  Once the brackets of its text are written out
they are: how tightly a phrase binds gives its category, brackets make an operand of any category
out of any condition, and what is spread out is an operand of the outer connective.  So the text of
a condition is read as the condition, up to brackets and borders, unless it is one of the two places
where brackets are needed and not printed.
-/

namespace RowGuard

open Query (ArithmeticOperator Comparison Keyword Label Phrase Token isName)
open Query.Phrase Query.Rendering

namespace Query.Grammar

/-! ## Categories of precedences -/

/-- The category of the phrases that bind as tightly at least. -/
def Category.ofPrecedence : Nat → Category
  | 0 | 1 => .condition
  | 2 => .term
  | 3 => .factor
  | 4 => .simple
  | 5 => .sum
  | 6 => .product
  | 7 => .signed
  | _ => .primary

theorem Category.ofPrecedence_ne_predicate (n : Nat) : Category.ofPrecedence n ≠ .predicate := by
  unfold ofPrecedence
  split <;> simp

section Precedences

variable {t : Phrase}

theorem prints_ofPrecedence_pred (n : Nat) (h : Prints (.ofPrecedence (n + 1)) t) :
    Prints (.ofPrecedence n) t := by
  have hn := Category.ofPrecedence_ne_predicate n
  match n with
  | 0 => exact h
  | 1 => exact h.loosen hn (by decide : 1 ≤ 2) fun _ => recited_condition_of_term
  | 2 => exact h.loosen hn (by decide : 2 ≤ 3) fun _ => recited_term_of_factor
  | 3 => exact h.loosen hn (Nat.le_refl 3) fun _ => recited_factor_of_simple
  | 4 => exact h.loosen hn (by decide : 3 ≤ 5) fun _ => recited_simple_of_sum
  | 5 => exact h.loosen hn (by decide : 5 ≤ 6) fun _ => recited_sum_of_product
  | 6 => exact h.loosen hn (by decide : 6 ≤ 7) fun _ => recited_product_of_signed
  | 7 => exact h.loosen hn (by decide : 7 ≤ 8) fun _ => recited_signed_of_primary
  | n + 8 => exact h

/-- What binds tightly may stand where something looser may. -/
theorem prints_ofPrecedence_of_le {m n : Nat} (hle : m ≤ n) (h : Prints (.ofPrecedence n) t) :
    Prints (.ofPrecedence m) t := by
  induction hle with
  | refl => exact h
  | step _ ih => exact ih (prints_ofPrecedence_pred _ h)

theorem Prints.primary_of_reference (h : Prints .reference t) : Prints .primary t :=
  h.loosen (by simp) (Nat.le_refl 8) fun _ => recited_primary_of_reference

theorem Prints.simple_of_predicate (h : Prints .predicate t) : Prints (.ofPrecedence 4) t :=
  h.loosen (Category.ofPrecedence_ne_predicate 4) (by decide : 3 ≤ 4) fun _ => id

/-- An operand that is enclosed where it has to be prints in its place. -/
theorem prints_enclose {least : Nat} (hleast : least ≤ 8)
    (h : Prints (.ofPrecedence t.label.precedence) t) :
    Prints (.ofPrecedence least) (enclose least t) := by
  unfold enclose
  split
  · have hinner : Prints .condition t := prints_ofPrecedence_of_le (Nat.zero_le _) h
    exact prints_ofPrecedence_of_le (n := 8) hleast (prints_brackets hinner Source.Span.none)
  · rename_i hlt
    exact prints_ofPrecedence_of_le (Nat.not_lt.mp hlt) h

end Precedences

/-! ## Conditions that were built -/

/-- The conditions that are put together from names, paths, parameters, literals and constants. -/
inductive IsBuilt : Phrase → Prop
  | reference {t : Phrase} : Derives .reference t → IsBuilt t
  | literal {token : Token} {l : Label} (s : Source.Span) : token.Legal →
      literalLabel? token = some l → IsBuilt (.node l [] s)
  | keyword {k : Keyword} {l : Label} (s : Source.Span) : keywordLabel? k = some l →
      IsBuilt (.node l [] s)
  | negative {t : Phrase} (s : Source.Span) : IsBuilt t → IsBuilt (.node .negative [t] s)
  | arithmetic {t u : Phrase} (op : ArithmeticOperator) (s : Source.Span) : IsBuilt t →
      IsBuilt u → IsBuilt (.node (.arithmetic op) [t, u] s)
  | compare {t u : Phrase} (op : Comparison) (s : Source.Span) : IsBuilt t → IsBuilt u →
      IsBuilt (.node (.compare op) [t, u] s)
  | between {v t u : Phrase} (s : Source.Span) : IsBuilt v → IsBuilt t → IsBuilt u →
      IsBuilt (.node .between [v, t, u] s)
  | isIn {v t : Phrase} {ts : List Phrase} (s : Source.Span) : IsBuilt v →
      (∀ u ∈ t :: ts, IsBuilt u) → IsBuilt (.node .isIn (v :: t :: ts) s)
  | isNull {v : Phrase} (s : Source.Span) : IsBuilt v → IsBuilt (.node .isNull [v] s)
  | not {t : Phrase} (s : Source.Span) : IsBuilt t → IsBuilt (.node .not [t] s)
  | and {t u : Phrase} {ts : List Phrase} (s : Source.Span) : (∀ v ∈ t :: u :: ts, IsBuilt v) →
      IsBuilt (.node .and (t :: u :: ts) s)
  | or {t u : Phrase} {ts : List Phrase} (s : Source.Span) : (∀ v ∈ t :: u :: ts, IsBuilt v) →
      IsBuilt (.node .or (t :: u :: ts) s)

/-- An operand needs brackets in its place and gets none. -/
def isUnenclosed : Phrase → Bool
  | .node (.compare _) (t :: _) _ => t.label.precedence == 4
  | .node .isIn (_ :: ts) _ => ts.any fun t => t.label.precedence < 5
  | _ => false

/-- No operand of the phrase lacks its brackets. -/
def Enclosed (t : Phrase) : Prop := ∀ u ∈ t.nodes, isUnenclosed u = false

variable {t : Phrase}

theorem Enclosed.here (h : Enclosed t) : isUnenclosed t = false := h t (mem_nodes_self t)

theorem Enclosed.child {l : Label} {ts : List Phrase} {s : Source.Span}
    (h : Enclosed (.node l ts s)) (ht : t ∈ ts) : Enclosed t :=
  fun u hu => h u (mem_nodes_of_child ht hu)

theorem IsBuilt.label_ne_subselect (h : IsBuilt t) : t.label ≠ .subselect := by
  have hleaf : ∀ {l : Label}, l.isLeaf → l ≠ .subselect := by
    rintro l hl rfl
    cases hl
  cases h with
  | reference h => cases h <;> simp [Phrase.label]
  | literal s _ hl => exact hleaf (isLeaf_of_literalLabel? hl)
  | keyword s hl => exact hleaf (isLeaf_of_keywordLabel? hl)
  | _ => simp [Phrase.label]

/-! ## Brackets that are written out -/

/-- What is known of a phrase once its brackets are written out. -/
structure Grouped (t : Phrase) : Prop where
  prints : Prints (.ofPrecedence t.label.precedence) t.group
  piece_eq : piece t.group = piece t
  /-- The operands of a connective, which may be spread out further outside. -/
  operands : t.label = .and ∨ t.label = .or → t.group.children ≠ [] ∧
    ∀ u ∈ t.group.children, Prints (.ofPrecedence (t.label.precedence + 1)) u

theorem Grouped.enclose (h : Grouped t) {least : Nat} (hleast : least ≤ 8) :
    Prints (.ofPrecedence least) (enclose least t.group) :=
  prints_enclose hleast (by rw [label_group]; exact h.prints)

theorem enclose_succ {n : Nat} (h : t.label.precedence ≠ n) : enclose n t = enclose (n + 1) t := by
  unfold Query.Phrase.enclose
  exact if_congr (by omega) rfl rfl

theorem eq_of_precedence_eq {l m : Label} (hl : l = .and ∨ l = .or)
    (h : m.precedence = l.precedence) : m = l := by
  rcases hl with rfl | rfl
  · have hand : m.precedence = 2 := h
    unfold Label.precedence at hand
    split at hand <;> first | rfl | cases hand
  · have hor : m.precedence = 1 := h
    unfold Label.precedence at hor
    split at hor <;> first | rfl | cases hor

theorem Grouped.spread_ne_nil (h : Grouped t) {l : Label} (hl : l = .and ∨ l = .or) :
    spread l t.group ≠ [] := by
  unfold spread
  split
  · rename_i hlabel
    rw [label_group] at hlabel
    exact (h.operands (hlabel ▸ hl)).1
  · simp

/-- What an operand of a connective is spread out into are operands of the connective. -/
theorem Grouped.prints_spread (h : Grouped t) {l : Label} (hl : l = .and ∨ l = .or) :
    ∀ u ∈ spread l t.group, Prints (.ofPrecedence (l.precedence + 1)) u := by
  unfold spread
  split
  · rename_i hlabel
    rw [label_group] at hlabel
    subst hlabel
    exact (h.operands hl).2
  · rename_i hlabel
    have hprecedence : t.group.label.precedence ≠ l.precedence :=
      fun heq => hlabel (eq_of_precedence_eq hl heq)
    have hleast : l.precedence + 1 ≤ 8 := by rcases hl with rfl | rfl <;> decide
    rw [enclose_succ hprecedence]
    exact List.forall_mem_singleton.mpr (h.enclose hleast)

theorem piece_group {l : Label} {ts : List Phrase} {s : Source.Span} (h : ∀ t ∈ ts, Grouped t) :
    piece (.node l ts s : Phrase).group = piece (.node l ts s) := by
  have hpieces : pieces (groupAll ts) = pieces ts := by
    rw [pieces_eq_map, pieces_eq_map, groupAll_eq_map, List.map_map]
    exact List.map_congr_left fun t ht => (h t ht).piece_eq
  have hspread : l = .and ∨ l = .or → ∀ c ∈ groupAll ts, spread l c ≠ [] := by
    intro hl
    rw [groupAll_eq_map]
    exact List.forall_mem_map.mpr fun t ht => (h t ht).spread_ne_nil hl
  rw [group, piece_arrange s hspread, hpieces]
  rfl

theorem grouped_node {l : Label} {ts : List Phrase} {s : Source.Span}
    (hl : ¬(l = .and ∨ l = .or)) (hts : ∀ t ∈ ts, Grouped t)
    (h : Prints (.ofPrecedence l.precedence) (.node l ts s : Phrase).group) :
    Grouped (.node l ts s) :=
  ⟨h, piece_group hts, fun hlabel => absurd hlabel hl⟩

theorem grouped_connective {l : Label} (hl : l = .and ∨ l = .or) {t u : Phrase}
    {ts : List Phrase} {s : Source.Span} (h : ∀ v ∈ t :: u :: ts, Grouped v) :
    Grouped (.node l (t :: u :: ts) s) := by
  have hgroup : (Phrase.node l (t :: u :: ts) s).group =
      .node l ((groupAll (t :: u :: ts)).flatMap (spread l)) s := by
    rcases hl with rfl | rfl <;> rfl
  have hprints : ∀ v ∈ (groupAll (t :: u :: ts)).flatMap (spread l),
      Prints (.ofPrecedence (l.precedence + 1)) v := by
    rw [groupAll_eq_map]
    simp only [List.mem_flatMap, List.mem_map]
    rintro v ⟨-, ⟨w, hw, rfl⟩, hv⟩
    exact (h w hw).prints_spread hl v hv
  -- Each operand is spread out into one at least, so there are two of them.
  obtain ⟨a, b, rest, hcons⟩ : ∃ a b rest,
      (groupAll (t :: u :: ts)).flatMap (spread l) = a :: b :: rest := by
    obtain ⟨a, as, ha⟩ := List.exists_cons_of_ne_nil ((h t (by simp)).spread_ne_nil hl)
    obtain ⟨b, bs, hb⟩ := List.exists_cons_of_ne_nil ((h u (by simp)).spread_ne_nil hl)
    rw [groupAll, groupAll, List.flatMap_cons, List.flatMap_cons, ha, hb]
    cases as <;> exact ⟨_, _, _, rfl⟩
  refine ⟨?_, piece_group h, fun _ => ?_⟩
  · rw [hcons] at hprints
    rw [hgroup, hcons]
    rcases hl with rfl | rfl
    · exact prints_and hprints s
    · exact prints_or hprints s
  · rw [hgroup]
    exact ⟨by rw [Phrase.children, hcons]; simp, hprints⟩

theorem grouped_of_primary (h : Prints .primary t) (hgroup : t.group = t) : Grouped t := by
  have hprecedence : t.label.precedence = 8 := Nat.le_antisymm (precedence_le _) h.least
  refine ⟨?_, by rw [hgroup], fun hl => ?_⟩
  · rw [hgroup, hprecedence]
    exact h
  · rcases hl with hl | hl <;> exact absurd (hl ▸ hprecedence) (by decide)

theorem group_leaf (l : Label) (s : Source.Span) : (Phrase.node l [] s).group = .node l [] s := by
  cases l <;> rfl

theorem groupAll_segments {ts : List Phrase} {ws : List String} (h : AreSegments ts ws) :
    groupAll ts = ts := by
  induction h with
  | nil => rfl
  | cons _ _ _ ih => rw [groupAll, group_leaf, ih]

theorem grouped_of_reference (h : Derives .reference t) : Grouped t := by
  cases h with
  | name s hx => exact grouped_of_primary (prints_name hx s).primary_of_reference (group_leaf _ s)
  | path r s hx hts hnames =>
      refine grouped_of_primary (prints_path hx hts hnames r s).primary_of_reference ?_
      rw [group, groupAll, group_leaf, groupAll_segments hts]
      rfl

/-- With its brackets written out, a condition prints in the category that its label names. -/
theorem IsBuilt.grouped (h : IsBuilt t) : Enclosed t → Grouped t := by
  induction h with
  | reference h => exact fun _ => grouped_of_reference h
  | literal s hlegal hl =>
      exact fun _ => grouped_of_primary (prints_literal hlegal hl s) (group_leaf _ s)
  | keyword s hl => exact fun _ => grouped_of_primary (prints_keyword hl s) (group_leaf _ s)
  | negative s _ ih =>
      intro h
      have ht := ih (h.child (by simp))
      exact grouped_node (by simp) (by simpa using ht)
        (prints_negative (ht.enclose (by decide : 7 ≤ 8)) s)
  | arithmetic op s _ _ iht ihu =>
      intro h
      have ht := iht (h.child (by simp))
      have hu := ihu (h.child (by simp))
      refine grouped_node (by simp) (by simpa using ⟨ht, hu⟩) ?_
      have hprecedence : (Label.arithmetic op).precedence + 1 ≤ 8 := by cases op <;> decide
      have htp := ht.enclose (Nat.le_of_succ_le hprecedence)
      have hup := hu.enclose hprecedence
      cases op with
      | add => exact prints_add rfl htp hup s
      | subtract => exact prints_add rfl htp hup s
      | multiply => exact prints_multiply rfl htp hup s
      | divide => exact prints_multiply rfl htp hup s
  | @compare t u op s _ _ iht ihu =>
      intro h
      have ht := iht (h.child (by simp))
      have hu := ihu (h.child (by simp))
      have hunenclosed := h.here
      refine grouped_node (by simp) (by simpa using ⟨ht, hu⟩) ?_
      -- A test as the left operand is the one that would get no brackets.
      have hleft : enclose 4 t.group = enclose 5 t.group :=
        enclose_succ (by rw [label_group]; simpa [isUnenclosed] using hunenclosed)
      have hprints := prints_compare op (ht.enclose (by decide : 5 ≤ 8))
        (hu.enclose (by decide : 5 ≤ 8)) s
      rw [← hleft] at hprints
      exact hprints
  | between s _ _ _ ihv iht ihu =>
      intro h
      have hv := ihv (h.child (by simp))
      have ht := iht (h.child (by simp))
      have hu := ihu (h.child (by simp))
      refine grouped_node (by simp) (by simpa using ⟨hv, ht, hu⟩) ?_
      have hprints := prints_between (hv.enclose (by decide : 5 ≤ 8))
        (ht.enclose (by decide : 5 ≤ 8)) (hu.enclose (by decide : 5 ≤ 8)) s
      exact hprints.simple_of_predicate
  | @isIn v u us s _ hts ihv ih =>
      intro h
      have hv := ihv (h.child (by simp))
      have hall := fun w hw => ih w hw (h.child (List.mem_cons_of_mem v hw))
      have hunenclosed := h.here
      refine grouped_node (by simp) (List.forall_mem_cons.mpr ⟨hv, hall⟩) ?_
      have hitems : ∀ w ∈ groupAll (u :: us), Prints .sum w := by
        rw [groupAll_eq_map]
        refine List.forall_mem_map.mpr fun w hw => ?_
        have htight : 5 ≤ w.label.precedence := by
          simpa using List.any_eq_false.mp hunenclosed w hw
        exact prints_ofPrecedence_of_le htight (hall w hw).prints
      have hlabel : us.map group = [] → u.group.label ≠ .subselect := fun _ => by
        rw [label_group]
        exact (hts u (by simp)).label_ne_subselect
      have hprints := prints_isIn (hv.enclose (by decide : 5 ≤ 8)) hitems
        (by rwa [groupAll_eq_map]) s
      exact hprints.simple_of_predicate
  | isNull s _ ih =>
      intro h
      have hv := ih (h.child (by simp))
      refine grouped_node (by simp) (by simpa using hv) ?_
      have hprints := prints_stateTest (Or.inl ⟨rfl, rfl⟩) (hv.enclose (by decide : 5 ≤ 8)) s
      exact hprints.simple_of_predicate
  | not s _ ih =>
      intro h
      have ht := ih (h.child (by simp))
      exact grouped_node (by simp) (by simpa using ht)
        (prints_not (ht.enclose (by decide : 3 ≤ 8)) s)
  | and s _ ih => exact fun h => grouped_connective (Or.inl rfl) fun v hv => ih v hv (h.child hv)
  | or s _ ih => exact fun h => grouped_connective (Or.inr rfl) fun v hv => ih v hv (h.child hv)

theorem enclosed_of_contains (h : t.contains isUnenclosed = false) : Enclosed t :=
  fun u hu => Bool.eq_false_iff.mpr (List.any_eq_false.mp h u hu)

/-! ## Queries -/

theorem conditionOf?_bare (t : Phrase) : t.bare.conditionOf? = t.conditionOf?.map bare := by
  unfold Phrase.conditionOf?
  rw [findChild?_bare]
  cases t.findChild? (· = .whereClause) <;> simp

/-- The query for the objects of a type that satisfy the condition. -/
def selection (entity x : String) (condition : Phrase) : Phrase :=
  let name : Phrase := .build (.identifier x) []
  .build .selectStatement [.build (.selectClause false) [name],
    .build .fromClause [.build .fromItem [.build (.entityName entity) [], name]],
    .build .whereClause [condition]]

theorem render_selection (entity x : String) (condition : Phrase) :
    (selection entity x condition).render =
      "SELECT " ++ x ++ " FROM " ++ entity ++ " " ++ x ++ " WHERE " ++ condition.render := by
  have hparts : (selection entity x condition).render = " ".intercalate
      ["SELECT " ++ ", ".intercalate [x], "FROM " ++ ", ".intercalate [" ".intercalate [entity, x]],
        "WHERE " ++ " ".intercalate [condition.render]] := rfl
  have hfrom : " FROM " = " " ++ "FROM " := rfl
  have hwhere : " WHERE " = " " ++ "WHERE " := rfl
  rw [hparts, hfrom, hwhere]
  simp only [String.intercalate_cons_cons, String.intercalate_singleton, String.append_assoc]

theorem reprints_selection {entity x : String} (he : isName entity) (hx : isVariable x)
    {condition : Phrase} (h : Prints .condition condition) :
    Reprints statement (selection entity x condition) := by
  have hsum : Prints .sum (.build (.identifier x) []) :=
    prints_ofPrecedence_of_le (by decide : 5 ≤ 8) (prints_name hx _).primary_of_reference
  have hname : Prints .selected (.build (.identifier x) []) :=
    hsum.loosen (by simp) (Nat.zero_le 5) fun _ => recited_selected_of_sum
  have hitem : Prints .fromItem (.build .fromItem [.build (.entityName entity) [],
      .build (.identifier x) []]) := prints_fromItem he hx (by simp) _ _ _
  have hclause : ∀ t ∈ some (Phrase.build .whereClause [condition]), Prints .whereClause t := by
    rintro _ ⟨⟩
    exact prints_whereClause h Source.Span.none
  have hmissing : ∀ c, ∀ t ∈ (none : Option Phrase), Prints c t := by simp
  obtain ⟨b, hb, hprinted, hphrases⟩ := exists_body
    (prints_selectClause false (List.forall_mem_singleton.mpr hname) Source.Span.none)
    (prints_fromClause (List.forall_mem_singleton.mpr hitem) Source.Span.none)
    hclause (hmissing .groupByClause) (hmissing .havingClause)
  have hreprints := reprints_selectStatement hb hprinted (hmissing .orderByClause) Source.Span.none
  rw [hphrases] at hreprints
  exact hreprints

end Query.Grammar

open Query.Grammar (IsBuilt Prints conditionOf?_bare enclosed_of_contains isUnenclosed isVariable
  isWord_of_isName prints_ofPrecedence_of_le render_selection reprints_selection)

/-- The text of a condition that was built is read as the condition, but for brackets and the
borders of connectives in connectives, where no operand lacks its brackets. -/
theorem Query.Phrase.built_conditions_are_read_back {entity x : String} (he : isName entity)
    (hx : isVariable x) {t : Phrase} (ht : IsBuilt t)
    (henclosed : t.contains isUnenclosed = false) :
    ∃ u condition, Phrase.ofText ("SELECT " ++ x ++ " FROM " ++ entity ++ " " ++ x ++ " WHERE " ++
        t.render) = .ok u ∧
      u.conditionOf? = some condition ∧ condition.ungroup.same t.ungroup = true := by
  have hgrouped := ht.grouped (enclosed_of_contains henclosed)
  have hprints : Prints .condition t.group :=
    prints_ofPrecedence_of_le (Nat.zero_le _) hgrouped.prints
  obtain ⟨u, hread, hsame⟩ := (reprints_selection he hx hprints).read
  have hrender : t.group.render = t.render := congrArg Piece.text hgrouped.piece_eq
  rw [render_selection, hrender] at hread
  rw [same_iff] at hsame
  have hcondition : u.conditionOf?.map bare = some t.group.bare := by
    rw [← conditionOf?_bare, hsame, conditionOf?_bare]
    rfl
  obtain ⟨condition, hfound, hbare⟩ := Option.map_eq_some_iff.mp hcondition
  refine ⟨u, condition, hread, hfound, ?_⟩
  rw [same_iff, ← ungroup_bare, hbare, ungroup_bare, ungroup_group]

theorem Query.Phrase.built_conditions_are_read_back_nested :
    ∃ t u condition : Phrase,
      t.render = "(d IS NULL OR -(d - 1) < 2) AND d NOT IN (1, 2) AND NOT (d OR d)" ∧
      Phrase.ofText ("SELECT " ++ "d" ++ " FROM " ++ "Document" ++ " " ++ "d" ++ " WHERE " ++
        t.render) = .ok u ∧
      u.conditionOf? = some condition ∧ condition.ungroup.same t.ungroup = true := by
  have hd : IsBuilt (.build (.identifier "d") []) :=
    .reference (.name _ (by decide +kernel))
  have hone : IsBuilt (.build (.integerLiteral "1") []) := .literal _ (Query.legal_of_munch
    (show Query.Scan.munch '1' [] = (some (Token.integer "1"), 0) from rfl)) rfl
  have htwo : IsBuilt (.build (.integerLiteral "2") []) := .literal _ (Query.legal_of_munch
    (show Query.Scan.munch '2' [] = (some (Token.integer "2"), 0) from rfl)) rfl
  have hnegative := IsBuilt.negative Source.Span.none
    (.arithmetic .subtract Source.Span.none hd hone)
  have heither := IsBuilt.or Source.Span.none (List.forall_mem_cons.mpr
    ⟨.isNull Source.Span.none hd, List.forall_mem_singleton.mpr
      (.compare .less Source.Span.none hnegative htwo)⟩)
  have hlisted := IsBuilt.not Source.Span.none (.isIn Source.Span.none hd
    (List.forall_mem_cons.mpr ⟨hone, List.forall_mem_singleton.mpr htwo⟩))
  have hneither := IsBuilt.not Source.Span.none (.or Source.Span.none
    (List.forall_mem_cons.mpr ⟨hd, List.forall_mem_singleton.mpr hd⟩))
  have hpair := IsBuilt.and Source.Span.none
    (List.forall_mem_cons.mpr ⟨heither, List.forall_mem_singleton.mpr hlisted⟩)
  have hbuilt := IsBuilt.and Source.Span.none
    (List.forall_mem_cons.mpr ⟨hpair, List.forall_mem_singleton.mpr hneither⟩)
  obtain ⟨u, condition, h⟩ := built_conditions_are_read_back
    (show isName "Document" by decide +kernel) (show isVariable "d" by decide +kernel) hbuilt
    (by decide +kernel)
  exact ⟨_, u, condition, by decide +kernel, h⟩

/-- A comparison on the left of a comparison gets no brackets, nor does a condition among the items
of a membership test, and the text is no query. -/
theorem Query.Phrase.test_as_operand_is_not_read :
    ∃ t u : Phrase, IsBuilt t ∧ t.render = "d.a = d.b = TRUE" ∧
      (Phrase.ofText ("SELECT d FROM Document d WHERE " ++ t.render)).toOption = none ∧
      IsBuilt u ∧ u.render = "TRUE IN (d.a = d.b)" ∧
      (Phrase.ofText ("SELECT d FROM Document d WHERE " ++ u.render)).toOption = none := by
  have hpath : ∀ w, isName w → IsBuilt
      (.build .path [.build (.identifier "d") [], .build (.segment w) []]) := fun w hw =>
    .reference (.path _ _ (by decide +kernel) (.cons _ (isWord_of_isName hw) .nil)
      (List.forall_mem_singleton.mpr hw))
  have htrue : IsBuilt (.build (.booleanLiteral true) []) :=
    .keyword (k := .true_) _ rfl
  have hsame := IsBuilt.compare .equal Source.Span.none
    (hpath "a" (by decide +kernel)) (hpath "b" (by decide +kernel))
  refine ⟨_, _, .compare .equal Source.Span.none hsame htrue, by decide +kernel, ?_,
    .isIn Source.Span.none htrue (List.forall_mem_singleton.mpr hsame), by decide +kernel, ?_⟩
  · exact Option.isNone_iff_eq_none.mp (by decide +kernel)
  · exact Option.isNone_iff_eq_none.mp (by decide +kernel)

end RowGuard
