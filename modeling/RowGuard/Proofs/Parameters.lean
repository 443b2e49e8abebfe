import RowGuard.Proofs.Insertions
import RowGuard.Proofs.Rows

/-!
# Conditions under other names of parameters

The parameters that were made before a rule show in its condition by the names of its
own parameters only.  Where a restriction goes through the same rule with others behind
it, it puts in a condition that differs in these names and holds the same values under
them, so no row tells the two conditions from each other.
-/

namespace RowGuard

open Query (Label Phrase)
open Query.Phrase
open Query.Grammar (Derives)

namespace Restriction

/-! ## Before the context is bound -/

/-- What a rule puts in for a path, with the context still in it. -/
def placed (c : SecurityContext) (taken : List String) (path : String) (r : AccessRule) : Phrase :=
  match r.condition? with
  | none => build (.booleanLiteral true) []
  | some condition =>
      if isUnbindable c condition then alwaysFalse
      else substitute r.subject (ofDotted path) (separate id taken condition).1

theorem instantiate_eq (c : SecurityContext) (taken : List String) (path : String)
    (r : AccessRule) : instantiate c taken path r = bindContext c (placed c taken path r) := by
  unfold instantiate placed
  cases r.condition? with
  | none => rfl
  | some condition =>
      cases hbindable : isUnbindable c condition with
      | true => simp only [hbindable, if_true]; rfl
      | false => simp only [hbindable, Bool.false_eq_true, if_false]

theorem wellFormed_placed {c : SecurityContext} {taken : List String} {path : String}
    {r : AccessRule} (hpath : Derives .reference (ofDotted path))
    (hcondition : ∀ condition, r.condition? = some condition → Derives .condition condition) :
    (placed c taken path r).WellFormed := by
  unfold placed
  split
  · exact .leaf _ rfl
  · rename_i condition hsome
    split
    · exact Query.Grammar.derives_alwaysFalse.shapes
    · exact (derives_placed (hcondition condition hsome) hpath r.subject taken).shapes

/-! ## Once it is bound -/

/-- A parameter that holds a value. -/
def HeldBy (values : Bindings Value) (v : Value) (u : Phrase) : Prop :=
  ∃ name, u = namedParameter name ∧ values.find? name = some v

mutual

/-- What a phrase becomes once every reference to the context is a parameter of its value. -/
def Bound (c : SecurityContext) (values : Bindings Value) : Phrase → Phrase → Prop
  | .node label cs span, u =>
      match label, cs with
      | .context item, _ => HeldBy values (Source.value c (.item item)) u
      | .namedParameter name, _ => HeldBy values (Source.value c (.attribute name)) u
      | .isIn, [t, .node (.context .roles) _ _] =>
          if c.roles.isEmpty then u = alwaysFalse
          else ∃ (first : Phrase) (names : List String),
            u = .node .isIn (first :: names.map namedParameter) span ∧
            names.map values.find? = c.roles.map some ∧ Bound c values t first
      | label, cs => ∃ us, u = .node label us span ∧ BoundAll c values cs us

def BoundAll (c : SecurityContext) (values : Bindings Value) : List Phrase → List Phrase → Prop
  | [], us => us = []
  | t :: ts, us => ∃ (first : Phrase) (others : List Phrase), us = first :: others ∧
      Bound c values t first ∧ BoundAll c values ts others

end

variable {c : SecurityContext} {values : Bindings Value}

theorem bound_node {l : Label} {ts : List Phrase} (hl : isParameter l = false)
    (h : ¬AskRoles l ts) {s : Source.Span} {u : Phrase} :
    Bound c values (.node l ts s) u ↔ ∃ us, u = .node l us s ∧ BoundAll c values ts us := by
  rw [Bound]
  · rintro item rfl
    cases hl
  · rintro name rfl
    cases hl
  · rintro t ds r rfl rfl
    exact h (.intro t ds r)

theorem bound_isIn {t u : Phrase} {ds : List Phrase} {r s : Source.Span} :
    Bound c values (.node .isIn [t, .node (.context .roles) ds r] s) u ↔
      if c.roles.isEmpty then u = alwaysFalse
      else ∃ (first : Phrase) (names : List String),
        u = .node .isIn (first :: names.map namedParameter) s ∧
        names.map values.find? = c.roles.map some ∧ Bound c values t first := by
  rw [Bound]

mutual

/-- Binding the context makes of a phrase what it is to become. -/
theorem binds_bound {before : List String} : ∀ t : Phrase,
    Binds c before (bindContext c t) fun values u => Bound c values t u
  | .node l ts s => by
      by_cases hparameter : isParameter l = true
      · cases l with
        | context item =>
            rw [bindContext]
            apply (binds_parameterFor _).mono
            intro values u hu
            rwa [Bound]
        | namedParameter name =>
            rw [bindContext]
            apply (binds_parameterFor _).mono
            intro values u hu
            rwa [Bound]
        | _ => cases hparameter
      · rw [Bool.not_eq_true] at hparameter
        by_cases hask : AskRoles l ts
        · obtain ⟨t, ds, r⟩ := hask
          cases hroles : c.roles.isEmpty with
          | true =>
              rw [bindContext_isIn_of_no_roles hroles]
              apply Binds.pure
              intro values
              rw [bound_isIn, if_pos hroles]
          | false =>
              rw [bindContext_isIn hroles]
              refine binds_roleParameters.bind fun us => (binds_bound t).bind fun first =>
                .pure fun values hfirst hroleNames => ?_
              obtain ⟨names, rfl, hnames⟩ := hroleNames
              rw [bound_isIn, if_neg (by simp [hroles])]
              exact ⟨first, names, rfl, hnames, hfirst⟩
        · rw [bindContext_node hparameter hask]
          refine (binds_boundAll ts).bind fun us => .pure fun values hus => ?_
          exact (bound_node hparameter hask).mpr ⟨us, rfl, hus⟩

theorem binds_boundAll {before : List String} : ∀ ts : List Phrase,
    Binds c before (bindContextAll c ts) fun values us => BoundAll c values ts us
  | [] => .pure fun _ => by rw [BoundAll]
  | t :: ts => by
      rw [bindContextAll]
      refine (binds_bound t).bind fun first => (binds_boundAll ts).bind fun others =>
        .pure fun values hothers hfirst => ?_
      rw [BoundAll]
      exact ⟨first, others, rfl, hfirst, hothers⟩

end

mutual

/-- Declarations and references stay as they are. -/
theorem Bound.eq_of_names : ∀ {t u : Phrase}, Names t → Bound c values t u → u = t
  | .node l ts s, u, hnames, h => by
      have hl : isNaming l = true := hnames _ (mem_nodes_self _)
      have hparameter : isParameter l = false := by
        cases l <;> first | rfl | cases hl
      have hroles : ¬AskRoles l ts := by
        rintro ⟨⟩
        cases hl
      obtain ⟨us, rfl, hus⟩ := (bound_node hparameter hroles).mp h
      rw [BoundAll.eq_of_names (fun t ht n hn => hnames n (mem_nodes_of_child ht hn)) hus]

theorem BoundAll.eq_of_names : ∀ {ts us : List Phrase}, (∀ t ∈ ts, Names t) →
    BoundAll c values ts us → us = ts
  | [], us, _, h => by rwa [BoundAll] at h
  | t :: ts, us, hnames, h => by
      rw [BoundAll] at h
      obtain ⟨first, others, rfl, hfirst, hothers⟩ := h
      rw [Bound.eq_of_names (hnames t (by simp)) hfirst,
        BoundAll.eq_of_names (fun u hu => hnames u (List.mem_cons_of_mem t hu)) hothers]

end

theorem BoundAll.forall₂ {ts us : List Phrase} (h : BoundAll c values ts us) :
    List.Forall₂ (Bound c values) ts us := by
  induction ts generalizing us with
  | nil =>
      rw [BoundAll] at h
      subst h
      exact .nil
  | cons t ts ih =>
      rw [BoundAll] at h
      obtain ⟨first, others, rfl, hfirst, hothers⟩ := h
      exact .cons hfirst (ih hothers)

/-- A phrase that is neither a parameter nor a membership keeps its label. -/
theorem Bound.label_eq {t u : Phrase} (h : Bound c values t u) (hl : isParameter t.label = false)
    (hmembership : t.label ≠ .isIn) : u.label = t.label := by
  obtain ⟨l, ts, s⟩ := t
  have hroles : ¬AskRoles l ts := by
    rintro ⟨⟩
    exact hmembership rfl
  obtain ⟨us, rfl, -⟩ := (bound_node hl hroles).mp h
  rfl

end Restriction

/-! ## Under the values of either side -/

open Restriction

/-- Parameters stand for parameters of the same value, some others for themselves. -/
def Link.parameters (own : List String) (values values' : Bindings Value) : Link where
  free n x ws := n = x ∧ ws = []
  leaf l m := (l = m ∧ ∀ name, l = .namedParameter name → name ∈ own) ∨
    ∃ name name' v, l = .namedParameter name ∧ m = .namedParameter name' ∧
      values.find? name = some v ∧ values'.find? name' = some v
  roles _ := False
  exact := False

section Sides

variable {c : SecurityContext} {own : List String} {values values' : Bindings Value}

/-- A row cannot tell the two sides from each other. -/
theorem agree_parameters {ev : Evaluator} {row user : Bindings Value}
    {positional : List (Nat × Value)} {now : Timestamp}
    (hfresh : ∀ name ∈ own, name ∉ values.names) (hfresh' : ∀ name ∈ own, name ∉ values'.names)
    (hnodup : values.names.Nodup) (hnodup' : values'.names.Nodup) :
    EnvironmentsAgree False ev (Link.parameters own values values') []
      (.ofRow row (user.bindAll values) positional now)
      (.ofRow row (user.bindAll values') positional now) where
  names n x ws href := by
    obtain ⟨rfl, rfl⟩ := Refers.nil_iff.mp href
    exact Or.inl ⟨rfl, rfl⟩
  leaf l l' hl _ hleaf := by
    rcases hleaf with ⟨rfl, hnames⟩ | ⟨name, name', v, rfl, rfl, hv, hv'⟩
    · cases l with
      | namedParameter name =>
          have hown := hnames name rfl
          simp only [Expression.terminal?, Environment.named?, Environment.ofRow]
          rw [Bindings.find?_bindAll_of_not_mem user (hfresh name hown),
            Bindings.find?_bindAll_of_not_mem user (hfresh' name hown)]
      | _ => rfl
    · simp only [Expression.terminal?, Environment.named?, Environment.ofRow]
      rw [Bindings.find?_bindAll hnodup, Bindings.find?_bindAll hnodup', hv, hv']
      rfl
  roles _ h := h.elim
  same h := h.elim

theorem Restriction.HeldBy.corresponds {v : Value} {u u' : Phrase} (h : HeldBy values v u)
    (h' : HeldBy values' v u') (i j : Nat) (ρ : Pairs) :
    Corresponds (Link.parameters own values values') i j ρ u u' := by
  obtain ⟨name, rfl, hv⟩ := h
  obtain ⟨name', rfl, hv'⟩ := h'
  exact .leaf _ _ rfl rfl (Or.inr ⟨name, name', v, rfl, rfl, hv, hv'⟩)

/-- The parameters of the roles, name by name. -/
theorem corresponds_roles {names names' : List String} {roles : List Value}
    (h : names.map values.find? = roles.map some) (h' : names'.map values'.find? = roles.map some)
    (i j : Nat) (ρ : Pairs) :
    AllCorrespond (Link.parameters own values values') i j ρ (names.map namedParameter)
      (names'.map namedParameter) := by
  induction roles generalizing names names' with
  | nil =>
      rw [List.map_nil, List.map_eq_nil_iff] at h h'
      subst h h'
      exact .nil
  | cons role roles ih =>
      obtain ⟨name, names, rfl, hname, hnames⟩ := List.map_eq_cons_iff.mp h
      obtain ⟨name', names', rfl, hname', hnames'⟩ := List.map_eq_cons_iff.mp h'
      exact .cons (HeldBy.corresponds ⟨name, rfl, hname⟩ ⟨name', rfl, hname'⟩ i j ρ)
        (ih hnames hnames')

theorem allCorrespond_bound {d : Nat} {ρ : Pairs} {ts us us' : List Phrase}
    (h : ∀ t ∈ ts, ∀ u u', Bound c values t u → Bound c values' t u' → t.depth ≤ d →
      Corresponds (Link.parameters own values values') d d ρ u u')
    (hus : BoundAll c values ts us) (hus' : BoundAll c values' ts us') (hd : depthAll ts ≤ d) :
    AllCorrespond (Link.parameters own values values') d d ρ us us' := by
  induction ts generalizing us us' with
  | nil =>
      rw [BoundAll] at hus hus'
      subst hus hus'
      exact .nil
  | cons t ts ih =>
      rw [BoundAll] at hus hus'
      obtain ⟨first, others, rfl, hfirst, hothers⟩ := hus
      obtain ⟨first', others', rfl, hfirst', hothers'⟩ := hus'
      rw [depthAll] at hd
      exact .cons (h t (by simp) first first' hfirst hfirst' (by omega))
        (ih (fun u hu => h u (List.mem_cons_of_mem t hu)) hothers hothers' (by omega))

/-- What a phrase becomes with some parameters corresponds to what it becomes with others
of the same values. -/
theorem Query.Phrase.Within.corresponds_bound {P : String → Prop} {t u u' : Phrase}
    (h : Within P t) (hu : Bound c values t u) (hu' : Bound c values' t u') {ρ : Pairs}
    (hρ : Diagonal ρ) {d : Nat} (hd : t.depth ≤ d) :
    Corresponds (Link.parameters own values values') d d ρ u u' := by
  induction h generalizing u u' ρ d with
  | reference ht _ =>
      rw [hu.eq_of_names ht.names, hu'.eq_of_names ht.names]
      exact .reference ht ht (refers_self hρ (Or.inr ⟨rfl, rfl⟩))
  | @leaf P l s hl =>
      cases l with
      | context item =>
          rw [Bound] at hu hu'
          exact hu.corresponds hu' d d ρ
      | namedParameter name =>
          rw [Bound] at hu hu'
          exact hu.corresponds hu' d d ρ
      | clock _ | positionalParameter _ | stringLiteral _ | integerLiteral _ | decimalLiteral _
      | booleanLiteral _ | null =>
          obtain ⟨us, rfl, hus⟩ := (bound_node rfl (by rintro ⟨⟩)).mp hu
          obtain ⟨us', rfl, hus'⟩ := (bound_node rfl (by rintro ⟨⟩)).mp hu'
          rw [BoundAll] at hus hus'
          subst hus hus'
          exact .leaf s s rfl rfl (Or.inl ⟨rfl, by simp⟩)
      | _ => cases hl
  | @subselect P cs items rest distinct s₁ s₂ s₃ hitems hjoins _ _ hfinal hselect hrest =>
      simp only [depth, depthAll, if_true] at hd
      obtain ⟨d, rfl⟩ : ∃ e, d = e + 1 := ⟨d - 1, by omega⟩
      have hnames := names_of_items hitems (Query.Grammar.isJoin_of_joinsWithin hjoins)
      -- The ranges and joins are the same on both sides.
      have hparts : ∀ {values : Bindings Value} {u : Phrase}, Bound c values (.node .subselect
          (.node (.selectClause distinct) cs s₁ :: .node .fromClause items s₂ :: rest) s₃) u →
          ∃ ds rest', u = .node .subselect (.node (.selectClause distinct) ds s₁
            :: .node .fromClause items s₂ :: rest') s₃ ∧
            BoundAll c values cs ds ∧ BoundAll c values rest rest' := by
        intro values u hu
        obtain ⟨us, rfl, hus⟩ := (bound_node rfl (by rintro ⟨⟩)).mp hu
        rw [BoundAll] at hus
        obtain ⟨select, us, rfl, hselected, hus⟩ := hus
        rw [BoundAll] at hus
        obtain ⟨clause, rest', rfl, hclause, hrest'⟩ := hus
        obtain ⟨ds, rfl, hds⟩ := (bound_node rfl (by rintro ⟨⟩)).mp hselected
        have hsame := hclause.eq_of_names (names_node rfl s₂ hnames)
        exact ⟨ds, rest', by rw [hsame], hds, hrest'⟩
      obtain ⟨ds, rest₁, rfl, hds, hrest₁⟩ := hparts hu
      obtain ⟨ds', rest₂, rfl, hds', hrest₂⟩ := hparts hu'
      have hranges := rangesCorrespond_self hitems (D := []) (by simp [Diagonal])
      rw [List.append_nil] at hranges
      have hdiagonal := (diagonal_diagonal (itemAliases items).reverse).append hρ
      refine .subselect distinct s₁ s₂ s₃ s₁ s₂ s₃ hranges ?_
        (allCorrespond_bound (fun t ht _ _ hu hu' hd => hselect t ht hu hu' hdiagonal hd) hds hds'
          (by omega))
        (allCorrespond_bound (fun t ht _ _ hu hu' hd => hrest t ht hu hu' hdiagonal hd) hrest₁
          hrest₂ (by omega)) ?_ (fun h => h.elim)
      · have hjs := hjoins.corresponds (k := Link.parameters own values values') hρ
          (diagonal_diagonal (rangeAliases items).reverse)
          (diagonal_diagonal (itemAliases items).reverse) (fun n hn => ?_) (fun n hn => ?_)
          (fun _ _ => Or.inr ⟨rfl, rfl⟩)
        · rwa [← diagonal_append, ← List.reverse_append] at hjs
        · rwa [mem_map_fst_diagonal, List.mem_reverse]
        · rw [mem_map_fst_diagonal, List.mem_reverse, itemAliases, List.mem_append]
          exact hn.symm
      · intro clause hclause
        obtain ⟨t, ht, hbound⟩ : ∃ t ∈ rest, Bound c values t clause := by
          obtain ⟨i, hi, rfl⟩ := List.getElem_of_mem hclause
          have hall := hrest₁.forall₂
          exact ⟨_, List.getElem_mem (hall.length_eq.symm ▸ hi), List.Forall₂.get hall _ hi⟩
        have hlabel := hfinal t ht
        rw [hbound.label_eq]
        · exact hlabel
        · generalize t.label = l at hlabel
          cases l <;> first | rfl | cases hlabel
        · rintro heq
          rw [heq] at hlabel
          cases hlabel
  | @compound P l ts s hcompound hts ih =>
      by_cases hask : AskRoles l ts
      · obtain ⟨t, ds, r⟩ := hask
        rw [bound_isIn] at hu hu'
        split at hu
        · rename_i hroles
          rw [if_pos hroles] at hu'
          subst hu hu'
          exact .compound _ _ rfl (.cons (.leaf _ _ rfl rfl (Or.inl ⟨rfl, by simp⟩))
            (.cons (.leaf _ _ rfl rfl (Or.inl ⟨rfl, by simp⟩)) .nil))
        · rename_i hroles
          rw [if_neg hroles] at hu'
          obtain ⟨first, names, rfl, hnames, hfirst⟩ := hu
          obtain ⟨first', names', rfl, hnames', hfirst'⟩ := hu'
          simp only [depth, depthAll] at hd
          exact .compound s s rfl (.cons (ih t (by simp) hfirst hfirst' hρ (by omega))
            (corresponds_roles hnames hnames' d d ρ))
      · have hparameter : isParameter l = false := by
          cases l <;> first | rfl | cases hcompound
        obtain ⟨us, rfl, hus⟩ := (bound_node hparameter hask).mp hu
        obtain ⟨us', rfl, hus'⟩ := (bound_node hparameter hask).mp hu'
        simp only [depth] at hd
        exact .compound s s hcompound (allCorrespond_bound
          (fun t ht _ _ hu hu' hd => ih t ht hu hu' hρ hd) hus hus' (by omega))

end Sides

end RowGuard
