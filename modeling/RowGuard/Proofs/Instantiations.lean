import RowGuard.Proofs.Binders
import RowGuard.Proofs.Substitutions

/-!
# Conditions with parameters for the context

With a parameter for each part of the context that it asks for, a condition says
what it said before.  The one exception is a membership in the roles where there
are none: it is replaced by a condition that never holds, while the membership
is undefined when what it asks for is.
-/

namespace RowGuard

open Query (ContextItem Label Phrase)
open Query.Phrase

/-! ## Memberships without roles -/

namespace Restriction

mutual

/-- The phrase with memberships in no roles at all taken for false. -/
def settle (c : SecurityContext) : Phrase → Phrase
  | .node label cs span =>
      match label, cs with
      | .isIn, [t, .node (.context .roles) ds r] =>
          if c.roles.isEmpty then Phrase.alwaysFalse
          else .node .isIn [settle c t, .node (.context .roles) ds r] span
      | label, cs => .node label (settleAll c cs) span

def settleAll (c : SecurityContext) : List Phrase → List Phrase
  | [] => []
  | t :: ts => settle c t :: settleAll c ts

end

/-- Children of a membership in the roles. -/
inductive AskRoles : Label → List Phrase → Prop
  | intro (t : Phrase) (ds : List Phrase) (r : Source.Span) :
      AskRoles .isIn [t, .node (.context .roles) ds r]

variable {c : SecurityContext}

theorem settle_node {l : Label} {ts : List Phrase} (h : ¬AskRoles l ts) (s : Source.Span) :
    settle c (.node l ts s) = .node l (settleAll c ts) s := by
  rw [settle]
  rintro t ds r rfl rfl
  exact h (.intro t ds r)

theorem settle_isIn (t : Phrase) (ds : List Phrase) (r s : Source.Span) :
    settle c (.node .isIn [t, .node (.context .roles) ds r] s) =
      if c.roles.isEmpty then alwaysFalse
      else .node .isIn [settle c t, .node (.context .roles) ds r] s := by
  rw [settle]

mutual

/-- Where there are roles, nothing is taken for false. -/
theorem settle_of_roles (hroles : c.roles.isEmpty = false) : ∀ t : Phrase, settle c t = t
  | .node l ts s => by
      by_cases hask : AskRoles l ts
      · obtain ⟨t, ds, r⟩ := hask
        rw [settle_isIn, hroles, settle_of_roles hroles t]
        rfl
      · rw [settle_node hask, settleAll_of_roles hroles ts]

theorem settleAll_of_roles (hroles : c.roles.isEmpty = false) :
    ∀ ts : List Phrase, settleAll c ts = ts
  | [] => rfl
  | t :: ts => by rw [settleAll, settle_of_roles hroles t, settleAll_of_roles hroles ts]

end

/-! ## Binding node by node -/

/-- Labels that stand for a part of the context. -/
def isParameter : Label → Bool
  | .context _ | .namedParameter _ => true
  | _ => false

theorem bindContext_node {l : Label} {ts : List Phrase} (hl : isParameter l = false)
    (h : ¬AskRoles l ts) (s : Source.Span) :
    bindContext c (.node l ts s) = do return .node l (← bindContextAll c ts) s := by
  rw [bindContext]
  · rintro item rfl
    cases hl
  · rintro name rfl
    cases hl
  · rintro t ds r rfl rfl
    exact h (.intro t ds r)

/-- The binding of a membership in roles that there are. -/
theorem bindContext_isIn {t : Phrase} (hroles : c.roles.isEmpty = false) (ds : List Phrase)
    (r s : Source.Span) :
    bindContext c (.node .isIn [t, .node (.context .roles) ds r] s) = do
      let roles ← roleParameters c
      let first ← bindContext c t
      return .node .isIn (first :: roles) s := by
  rw [bindContext, hroles]
  rfl

theorem bindContext_isIn_of_no_roles {t : Phrase} (hroles : c.roles.isEmpty = true)
    (ds : List Phrase) (r s : Source.Span) :
    bindContext c (.node .isIn [t, .node (.context .roles) ds r] s) = pure alwaysFalse := by
  rw [bindContext, hroles]
  rfl

/-! ## Parts without parameters -/

/-- Labels of declarations and references. -/
def isNaming : Label → Bool
  | .fromClause | .fromItem | .join _ _ | .entityName _ | .identifier _ | .path | .segment _ => true
  | _ => false

/-- A phrase that is made of declarations and references only. -/
def Names (t : Phrase) : Prop := ∀ n ∈ t.nodes, isNaming n.label = true

theorem names_node {l : Label} (hl : isNaming l = true) {ts : List Phrase} (s : Source.Span)
    (h : ∀ t ∈ ts, Names t) : Names (.node l ts s) := by
  intro n hn
  simp only [nodes, visit, if_true, List.mem_cons] at hn
  rcases hn with rfl | hn
  · exact hl
  · obtain ⟨t, ht, hn⟩ := mem_visitAll.mp hn
    exact h t ht n hn

mutual

theorem Names.unchanged : ∀ {t : Phrase}, Names t →
    settle c t = t ∧ bindContext c t = pure t
  | .node l ts s, h => by
      have hl : isNaming l = true := h _ (mem_nodes_self _)
      obtain ⟨hsettled, hbound⟩ := Names.unchangedAll fun t ht n hn => h n (mem_nodes_of_child ht hn)
      have hroles : ¬AskRoles l ts := by
        rintro ⟨⟩
        cases hl
      have hparameter : isParameter l = false := by
        cases l <;> first | rfl | cases hl
      rw [settle_node hroles, bindContext_node hparameter hroles, hsettled, hbound]
      exact ⟨rfl, rfl⟩

theorem Names.unchangedAll : ∀ {ts : List Phrase}, (∀ t ∈ ts, Names t) →
    settleAll c ts = ts ∧ bindContextAll c ts = pure ts
  | [], _ => ⟨rfl, rfl⟩
  | t :: ts, h => by
      obtain ⟨hsettled, hbound⟩ := Names.unchanged (h t (by simp))
      obtain ⟨hsettled', hbound'⟩ :=
        Names.unchangedAll fun u hu => h u (List.mem_cons_of_mem t hu)
      rw [settleAll, bindContextAll, hsettled, hsettled', hbound, hbound']
      exact ⟨rfl, rfl⟩

end

end Restriction

open Restriction

theorem Query.Phrase.AreSegments.names {segments : List Phrase} {ws : List String}
    (h : AreSegments segments ws) : ∀ t ∈ segments, Names t := by
  induction h with
  | nil => simp
  | cons s _ _ ih => exact List.forall_mem_cons.mpr ⟨names_node rfl s (by simp), ih⟩

theorem Query.Phrase.IsReference.names {t : Phrase} {x : String} {ws : List String}
    (h : t.IsReference x ws) : Names t := by
  have hname : ∀ (y : String) (s : Source.Span), Names (.node (.identifier y) [] s) :=
    fun y s => names_node rfl s (by simp)
  cases h with
  | name span _ => exact hname x span
  | path rootSpan span _ hsegments =>
      refine names_node rfl span fun t ht => ?_
      rcases List.mem_cons.mp ht with rfl | ht
      · exact hname x rootSpan
      · exact hsegments.names t ht

theorem Query.Phrase.IsJoin.names {j : Phrase} (h : j.IsJoin) : Names j := by
  cases h with
  | bare outer fetch s hp =>
      refine names_node rfl s fun t ht => ?_
      rw [List.mem_singleton.mp ht]
      exact hp.names
  | named outer fetch s r hp _ =>
      refine names_node rfl s fun t ht => ?_
      rcases List.mem_cons.mp ht with rfl | ht
      · exact hp.names
      · rw [List.mem_singleton.mp ht]
        exact names_node rfl r (by simp)

theorem names_of_items {items : List Phrase} (hitems : ∀ r ∈ items, r.IsRange)
    (hjoins : ∀ j ∈ joinsOf items, j.IsJoin) : ∀ r ∈ items, Names r := by
  intro r hr
  have hjoin : ∀ j ∈ r.children.drop 2, j.IsJoin :=
    fun j hj => hjoins j (List.mem_flatMap.mpr ⟨r, hr, hj⟩)
  obtain ⟨a, entity, js, s₁, s₂, s₃, -⟩ := hitems r hr
  refine names_node rfl s₃ fun t ht => ?_
  rcases List.mem_cons.mp ht with rfl | ht
  · exact names_node rfl s₁ (by simp)
  · rcases List.mem_cons.mp ht with rfl | ht
    · exact names_node rfl s₂ (by simp)
    · exact (hjoin t ht).names

theorem JoinsCorrespond.isJoin {k : Link} {ρ P D E : Pairs} {js ks : List Phrase}
    (h : JoinsCorrespond k ρ P D js ks E) :
    (∀ j ∈ js, j.IsJoin) ∧ ∀ j ∈ ks, j.IsJoin := by
  induction h with
  | nil => simp
  | bare outer fetch s s' hp hq _ _ ih =>
      exact ⟨List.forall_mem_cons.mpr ⟨.bare outer fetch s hp, ih.1⟩,
        List.forall_mem_cons.mpr ⟨.bare outer fetch s' hq, ih.2⟩⟩
  | named outer fetch s s' r r' hp hq _ _ ha hb _ _ ih =>
      exact ⟨List.forall_mem_cons.mpr ⟨.named outer fetch s r hp ha, ih.1⟩,
        List.forall_mem_cons.mpr ⟨.named outer fetch s' r' hq hb, ih.2⟩⟩

theorem RangesCorrespond.isRange_right {D E : Pairs} {items items' : List Phrase}
    (h : RangesCorrespond D items items' E) : ∀ r ∈ items', r.IsRange := by
  induction h with
  | nil => simp
  | cons entity s₁ s₂ s₃ s₁' s₂' s₃' _ hb _ _ ih =>
      exact List.forall_mem_cons.mpr ⟨.intro _ entity _ s₁' s₂' s₃' hb, ih⟩

/-! ## Corresponding parameters -/

namespace Restriction

/-- Literals and the clock, which mean the same everywhere. -/
def isConstant : Label → Bool
  | .clock _ | .stringLiteral _ | .integerLiteral _ | .decimalLiteral _ | .booleanLiteral _
  | .null => true
  | _ => false

/-- What stands for a phrase without operands once the context is bound. -/
inductive Stands (c : SecurityContext) (values : Bindings Value) : Label → Label → Prop
  | context {item : ContextItem} {name : String} :
      values.find? name = some (Expression.ofContext c item) →
        Stands c values (.context item) (.namedParameter name)
  | named {old name : String} {v : Value} : c.attribute? old = some v →
      values.find? name = some v → Stands c values (.namedParameter old) (.namedParameter name)
  | constant {l : Label} : isConstant l → Stands c values l l

/-- Whether the context has a value for every parameter of a phrase. -/
def Bindable (c : SecurityContext) (t : Phrase) : Prop :=
  ∀ n ∈ t.nodes, (∀ index, n.label ≠ .positionalParameter index) ∧
    ∀ name, n.label = .namedParameter name → ∃ v, c.attribute? name = some v

theorem bindable_of_not_isUnbindable {c : SecurityContext} {t : Phrase}
    (h : isUnbindable c t = false) : Bindable c t := by
  intro n hn
  have hnode := List.any_eq_false.mp h n hn
  constructor
  · intro index hl
    simp [hl] at hnode
  · intro name hl
    simp only [hl, Option.isNone_iff_eq_none] at hnode
    exact Option.ne_none_iff_exists'.mp hnode

theorem Bindable.child {c : SecurityContext} {l : Label} {ts : List Phrase} {s : Source.Span}
    (h : Bindable c (.node l ts s)) : ∀ t ∈ ts, Bindable c t :=
  fun _ ht n hn => h n (mem_nodes_of_child ht hn)

/-- Whether all roles are single values, as far as a phrase asks for them. -/
def SingleRoles (c : SecurityContext) (t : Phrase) : Prop :=
  ∀ n ∈ t.nodes, AskRoles n.label n.children → ∀ role ∈ c.roles, ∀ items, role ≠ .collection items

theorem SingleRoles.child {c : SecurityContext} {l : Label} {ts : List Phrase} {s : Source.Span}
    (h : SingleRoles c (.node l ts s)) : ∀ t ∈ ts, SingleRoles c t :=
  fun _ ht n hn => h n (mem_nodes_of_child ht hn)

end Restriction

/-- A link with parameters in place of the context. -/
def Link.binding (c : SecurityContext) (values : Bindings Value) (k : Link) : Link where
  free := k.free
  leaf := Stands c values
  roles names := names.map values.find? = c.roles.map some ∧
    ∀ role ∈ c.roles, ∀ items, role ≠ .collection items
  exact := False

/-- Leaves stand for themselves only. -/
def Link.Plain (k : Link) : Prop := (∀ l m, k.leaf l m → l = m) ∧ ∀ names, ¬k.roles names

section Binding

variable {c : SecurityContext} {before : List String} {k : Link} {values : Bindings Value}

theorem Refers.binding {ρ : Pairs} {n x : String} {ws : List String} (h : Refers k ρ n x ws) :
    Refers (k.binding c values) ρ n x ws := by
  cases h with
  | bound h => exact .bound h
  | free hnone hfree => exact .free hnone hfree

theorem JoinsCorrespond.binding {ρ P D E : Pairs} {js ks : List Phrase}
    (h : JoinsCorrespond k ρ P D js ks E) :
    JoinsCorrespond (k.binding c values) ρ P D js ks E := by
  induction h with
  | nil => exact .nil _
  | bare outer fetch s s' hp hq href _ ih =>
      exact .bare outer fetch s s' hp hq href.binding ih
  | named outer fetch s s' r r' hp hq href href' ha hb hrepeats _ ih =>
      exact .named outer fetch s s' r r' hp hq href.binding href'.binding ha hb hrepeats ih

theorem corresponds_alwaysFalse (i j : Nat) (ρ : Pairs) :
    Corresponds (k.binding c values) i j ρ alwaysFalse alwaysFalse :=
  .compound _ _ rfl (.cons (.leaf _ _ rfl rfl (.constant rfl))
    (.cons (.leaf _ _ rfl rfl (.constant rfl)) .nil))

/-- A phrase without operands. -/
theorem binds_leaf {l : Label} (hl : l.isLeaf) (s s' : Source.Span)
    (hbindable : Bindable c (.node l [] s)) (i j : Nat) (ρ : Pairs) :
    Binds c before (bindContext c (.node l [] s')) fun values u =>
      Corresponds (k.binding c values) i j ρ (settle c (.node l [] s)) u := by
  have hsettled : settle c (.node l [] s) = .node l [] s := settle_node (by rintro ⟨⟩) s
  rw [hsettled]
  have hbuilt : ∀ {values : Bindings Value} {name : String},
      Stands c values l (.namedParameter name) →
        Corresponds (k.binding c values) i j ρ (.node l [] s) (namedParameter name) :=
    fun h => .leaf s _ hl rfl h
  have hconstant : isConstant l = true → isParameter l = false →
      Binds c before (bindContext c (.node l [] s')) fun values u =>
        Corresponds (k.binding c values) i j ρ (.node l [] s) u := by
    intro hconstant hparameter
    rw [bindContext_node hparameter (by rintro ⟨⟩)]
    exact .pure fun values => .leaf s s' hl hl (.constant hconstant)
  cases l with
  | context item =>
      have hbound : bindContext c (.node (.context item) [] s') = parameterFor c (.item item) := by
        rw [bindContext]
      rw [hbound]
      refine (binds_parameterFor _).mono fun values t ht => ?_
      obtain ⟨name, rfl, hvalue⟩ := ht
      refine hbuilt (.context ?_)
      cases item <;> exact hvalue
  | namedParameter old =>
      have hbound : bindContext c (.node (.namedParameter old) [] s') =
          parameterFor c (.attribute old) := by
        rw [bindContext]
      obtain ⟨v, hv⟩ := (hbindable _ (mem_nodes_self _)).2 old rfl
      rw [hbound]
      refine (binds_parameterFor _).mono fun values t ht => ?_
      obtain ⟨name, rfl, hvalue⟩ := ht
      refine hbuilt (.named hv ?_)
      simpa [Source.value, hv] using hvalue
  | positionalParameter index => exact absurd rfl ((hbindable _ (mem_nodes_self _)).1 index)
  | clock _ | stringLiteral _ | integerLiteral _ | decimalLiteral _ | booleanLiteral _ | null =>
      exact hconstant rfl rfl
  | _ => cases hl

/-- A membership in the roles. -/
theorem binds_isIn {i j : Nat} {ρ : Pairs} {t u : Phrase} {ds es : List Phrase}
    {r r' s s' : Source.Span} (hds : ds = [])
    (hroles : ∀ role ∈ c.roles, ∀ items, role ≠ .collection items)
    (h : Binds c before (bindContext c u) fun values w =>
      Corresponds (k.binding c values) i j ρ (settle c t) w) :
    Binds c before (bindContext c (.node .isIn [u, .node (.context .roles) es r'] s'))
      fun values w => Corresponds (k.binding c values) i j ρ
        (settle c (.node .isIn [t, .node (.context .roles) ds r] s)) w := by
  rw [settle_isIn]
  cases hempty : c.roles.isEmpty with
  | true =>
      rw [bindContext_isIn_of_no_roles hempty, if_pos rfl]
      exact .pure fun values => corresponds_alwaysFalse i j ρ
  | false =>
      rw [bindContext_isIn hempty, if_neg (by simp), hds]
      refine binds_roleParameters.bind fun ts => h.bind fun w => .pure fun values hw hts => ?_
      obtain ⟨names, rfl, hnames⟩ := hts
      refine .roles s s' r hw ⟨hnames, hroles⟩ ?_
      rintro rfl
      have hnone : c.roles = [] := by simpa using hnames.symm
      rw [hnone] at hempty
      cases hempty

/-- By a plain link a part of the context corresponds to itself only. -/
theorem Corresponds.context {i j : Nat} {ρ : Pairs} {t u : Phrase} {item : ContextItem}
    (hk : k.Plain) (h : Corresponds k i j ρ t u)
    (hlabel : t.label = .context item ∨ u.label = .context item) :
    ∃ r r', t = .node (.context item) [] r ∧ u = .node (.context item) [] r' := by
  cases h with
  | reference ht hu _ =>
      rcases ht.label_cases with h | h <;> rcases hu.label_cases with h' | h' <;>
        simp [h, h'] at hlabel
  | leaf s s' _ _ hleaf =>
      obtain rfl := hk.1 _ _ hleaf
      rw [Phrase.label, Phrase.label, or_self] at hlabel
      subst hlabel
      exact ⟨s, s', rfl, rfl⟩
  | roles _ _ _ _ hroles => exact absurd hroles (hk.2 _)
  | subselect => simp [Phrase.label] at hlabel
  | compound _ _ hcompound _ =>
      rw [Phrase.label, Phrase.label, or_self] at hlabel
      subst hlabel
      cases hcompound

/-- Children of a membership in the roles correspond to such children. -/
theorem AllCorrespond.askRoles {i j : Nat} {ρ : Pairs} {l : Label} {ts us : List Phrase}
    (hk : k.Plain) (h : AllCorrespond k i j ρ ts us) (hask : AskRoles l ts ∨ AskRoles l us) :
    ∃ t u r r', l = .isIn ∧ ts = [t, .node (.context .roles) [] r] ∧
      us = [u, .node (.context .roles) [] r'] ∧ Corresponds k i j ρ t u := by
  rcases hask with hask | hask <;> obtain ⟨v, ds, r⟩ := hask <;>
    obtain ⟨⟩ | ⟨hfirst, ⟨⟩ | ⟨hsecond, ⟨⟩⟩⟩ := h
  · obtain ⟨q, q', heq, rfl⟩ := hsecond.context hk (Or.inl rfl)
    cases heq
    exact ⟨v, _, _, _, rfl, rfl, rfl, hfirst⟩
  · obtain ⟨q, q', rfl, heq⟩ := hsecond.context hk (Or.inr rfl)
    cases heq
    exact ⟨_, v, _, _, rfl, rfl, rfl, hfirst⟩

/-- Phrases that are bound one after the other. -/
theorem binds_all {i j : Nat} {ρ : Pairs} {ts us : List Phrase}
    (h : List.Forall₂ (fun t u => Bindable c t → SingleRoles c t →
      Binds c before (bindContext c u) fun values w =>
        Corresponds (k.binding c values) i j ρ (settle c t) w) ts us)
    (hbindable : ∀ t ∈ ts, Bindable c t) (hroles : ∀ t ∈ ts, SingleRoles c t) :
    Binds c before (bindContextAll c us) fun values ws =>
      AllCorrespond (k.binding c values) i j ρ (settleAll c ts) ws := by
  induction h with
  | nil => exact .pure fun values => .nil
  | cons hfirst _ ih =>
      obtain ⟨ht, hts⟩ := List.forall_mem_cons.mp hbindable
      obtain ⟨hroles, hroles'⟩ := List.forall_mem_cons.mp hroles
      exact (hfirst ht hroles).bind fun w => (ih hts hroles').bind fun ws =>
        .pure fun values hws hw => .cons hw hws

theorem not_askRoles_of_isCompound {l : Label} (hl : l ≠ .isIn) (ts : List Phrase) :
    ¬AskRoles l ts := by
  rintro ⟨⟩
  exact hl rfl

/-- The clauses of a subselect are bound in their order, its from items unchanged. -/
theorem bindContextAll_clauses {distinct : Bool} {ds items rest : List Phrase}
    {s₁ s₂ : Source.Span} (hitems : ∀ r ∈ items, Names r) :
    bindContextAll c (.node (.selectClause distinct) ds s₁ :: .node .fromClause items s₂ :: rest) =
      do
        let ds' ← bindContextAll c ds
        let rest' ← bindContextAll c rest
        return .node (.selectClause distinct) ds' s₁ :: .node .fromClause items s₂ :: rest' := by
  have hfrom : Names (.node .fromClause items s₂) := names_node rfl s₂ hitems
  rw [bindContextAll, bindContextAll, hfrom.unchanged.2,
    bindContext_node rfl (not_askRoles_of_isCompound (by simp) ds)]
  simp

theorem settleAll_clauses {distinct : Bool} {cs items rest : List Phrase} {s₁ s₂ : Source.Span}
    (hitems : ∀ r ∈ items, Names r) :
    settleAll c (.node (.selectClause distinct) cs s₁ :: .node .fromClause items s₂ :: rest) =
      .node (.selectClause distinct) (settleAll c cs) s₁ :: .node .fromClause items s₂ ::
        settleAll c rest := by
  have hfrom : Names (.node .fromClause items s₂) := names_node rfl s₂ hitems
  rw [settleAll, settleAll, hfrom.unchanged.1,
    settle_node (not_askRoles_of_isCompound (by simp) cs)]

theorem settleAll_isFinalClause {ts : List Phrase} (h : ∀ t ∈ ts, t.label.isFinalClause) :
    ∀ t ∈ settleAll c ts, t.label.isFinalClause := by
  induction ts with
  | nil => simp [settleAll]
  | cons t ts ih =>
      obtain ⟨l, cs, s⟩ := t
      obtain ⟨hl, hts⟩ := List.forall_mem_cons.mp h
      have hne : l ≠ .isIn := by
        rintro rfl
        cases hl
      rw [settleAll, settle_node (not_askRoles_of_isCompound hne cs)]
      exact List.forall_mem_cons.mpr ⟨hl, ih hts⟩

mutual

/-- Binding the context keeps the correspondence, memberships in no roles being
taken for false. -/
theorem Corresponds.bindContext (hk : k.Plain) : ∀ {i j : Nat} {ρ : Pairs} {t u : Phrase},
    Corresponds k i j ρ t u → Bindable c t → SingleRoles c t →
      Binds c before (Restriction.bindContext c u) fun values w =>
        Corresponds (k.binding c values) i j ρ (settle c t) w
  | _, _, _, _, _, .reference ht hu href, _, _ => by
      rw [ht.names.unchanged.1, hu.names.unchanged.2]
      exact .pure fun values => .reference ht hu href.binding
  | _, _, _, _, _, .leaf (l := l) s s' hl hm h, hbindable, _ => by
      obtain rfl := hk.1 _ _ h
      exact binds_leaf hl s s' hbindable _ _ _
  | _, _, _, _, _, .roles _ _ _ _ hroles _, _, _ => absurd hroles (hk.2 _)
  | i + 1, j + 1, ρ, _, _, .subselect distinct s₁ s₂ s₃ s₁' s₂' s₃' hranges hjoins hselect hrest
      hfinal _, hbindable, hroles => by
      have hitems := names_of_items hranges.isRange hjoins.isJoin.1
      have hitems' := names_of_items hranges.isRange_right hjoins.isJoin.2
      have hpart := hbindable.child
      have hclause := hpart _ (List.mem_cons_self)
      have hrolesPart := hroles.child
      rw [settle_node (not_askRoles_of_isCompound (by simp) _),
        bindContext_node rfl (not_askRoles_of_isCompound (by simp) _), settleAll_clauses hitems,
        bindContextAll_clauses hitems']
      simp only [bind_assoc, pure_bind]
      refine (binds_all (hselect.bindContextEach hk) hclause.child
        (hrolesPart _ List.mem_cons_self).child).bind fun ds =>
          (binds_all (hrest.bindContextEach hk) (fun t ht => hpart t (by simp [ht]))
            fun t ht => hrolesPart t (by simp [ht])).bind fun rest =>
              .pure fun values hrest hselect => ?_
      exact .subselect distinct s₁ s₂ s₃ s₁' s₂' s₃' hranges hjoins.binding hselect hrest
        (settleAll_isFinalClause hfinal) nofun
  | _, _, _, _, _, @Corresponds.compound _ _ _ _ l ts us s s' hcompound h, hbindable, hroles => by
      have heach := h.bindContextEach hk
      by_cases hask : AskRoles l ts ∨ AskRoles l us
      · obtain ⟨t, u, r, r', rfl, rfl, rfl, -⟩ := h.askRoles hk hask
        cases heach with
        | cons hfirst _ =>
            exact binds_isIn rfl (hroles _ (mem_nodes_self _) (.intro t [] r))
              (hfirst (hbindable.child _ (by simp)) (hroles.child _ (by simp)))
      · rw [not_or] at hask
        have hparameter : isParameter l = false := by
          cases l <;> first | rfl | cases hcompound
        rw [settle_node hask.1, bindContext_node hparameter hask.2]
        exact (binds_all heach hbindable.child hroles.child).bind fun ws => .pure fun values hws =>
          .compound s s' hcompound hws

theorem AllCorrespond.bindContextEach (hk : k.Plain) :
    ∀ {i j : Nat} {ρ : Pairs} {ts us : List Phrase}, AllCorrespond k i j ρ ts us →
      List.Forall₂ (fun t u => Bindable c t → SingleRoles c t →
        Binds c before (Restriction.bindContext c u) fun values w =>
          Corresponds (k.binding c values) i j ρ (settle c t) w) ts us
  | _, _, _, _, _, .nil => .nil
  | _, _, _, _, _, .cons h hs => .cons (h.bindContext hk) (hs.bindContextEach hk)

end

end Binding

end RowGuard
