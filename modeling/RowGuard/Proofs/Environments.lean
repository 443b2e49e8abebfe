import RowGuard.Proofs.Paths
import RowGuard.Proofs.Replacements

/-!
# Agreeing environments

Environments agree when names that refer to the same declaration hold the same
values on both sides.  A free name may also hold an object to which a path
leads on the other side, or null where the path leads nowhere.  Agreeing
environments give agreeing scopes, and binding partners to the same values keeps
the agreement.
-/

namespace RowGuard

open Query (AliasDefinition Label Phrase)
open Query.Phrase
open Query.Scope

/-- Where the mapping tells the type of what some words lead to from an object, the
object that they lead to has that type or a sharper one. -/
def TypedAlong (ev : Evaluator) (source target : ObjectId) (ws : List String) : Prop :=
  ∀ found?, typeFrom ev.mapping.model (some (ev.world.typeOf source)) ws = some found? →
    ∃ sup, found? = some sup ∧ Sharpens ev.mapping (ev.world.typeOf target) sup

/-- Words that lead from one object to another, of whose type the mapping tells the truth,
or to nothing. -/
inductive LeadsTo (ev : Evaluator) : Value → Value → List String → Prop
  | object {source target : ObjectId} {ws : List String} :
      Navigation.evaluateAll ev.mapping ev.world [.entity source] ws = .ok [.entity target] →
      TypedAlong ev source target ws → LeadsTo ev (.entity source) (.entity target) ws
  | nothing {root : Value} {ws : List String} :
      Navigation.evaluateAll ev.mapping ev.world [root] ws = .ok [] → LeadsTo ev root .null ws

/-- A path on the right stands for a value on the left. -/
def StandsFor (ev : Evaluator) (env env' : Environment) (n x : String) (ws : List String) :
    Prop :=
  ∃ root v, env'.held x = [root] ∧ env.held n = [v] ∧ LeadsTo ev root v ws

/-- Environments that give corresponding phrases the same meaning. -/
structure EnvironmentsAgree (lenient : Prop) (ev : Evaluator) (k : Link) (ρ : Pairs)
    (env env' : Environment) : Prop where
  names : ∀ n x ws, Refers k ρ n x ws → (ws = [] ∧ env.held n = env'.held x) ∨
    (lenient ∧ ws ≠ [] ∧ StandsFor ev env env' n x ws)
  leaf : ∀ l l', l.isLeaf → l'.isLeaf → k.leaf l l' →
    Expression.terminal? env l = Expression.terminal? env' l'
  roles : ∀ names, k.roles names → ∃ c, env.context? = some c ∧
    names.map env'.named? = c.roles.map some ∧ ∀ role ∈ c.roles, ∀ items, role ≠ .collection items
  same : k.exact → env.named = env'.named ∧ env.positional = env'.positional ∧
    env.context? = env'.context?

theorem Expression.terminal?_of_isLeaf {l : Label} (hleaf : l.isLeaf) (env : Environment)
    (aliases : Bindings Value) :
    terminal? { env with aliases } l = terminal? env l := by
  cases l <;> first | rfl | cases hleaf

section Agreement

variable {lenient : Prop} {ev : Evaluator} {k : Link} {ρ : Pairs} {env env' : Environment}

/-- Aliases aside, agreement is a matter of the environments as a whole. -/
theorem EnvironmentsAgree.withAliases {ρ' : Pairs} {aliases aliases' : Bindings Value}
    (h : EnvironmentsAgree lenient ev k ρ env env')
    (hnames : ∀ n x ws, Refers k ρ' n x ws →
      (ws = [] ∧ Bindings.held aliases n = Bindings.held aliases' x) ∨
      (lenient ∧ ws ≠ [] ∧ StandsFor ev { env with aliases } { env' with aliases := aliases' }
        n x ws)) :
    EnvironmentsAgree lenient ev k ρ' { env with aliases } { env' with aliases := aliases' } where
  names := hnames
  leaf l l' hl hl' hleaf := by
    rw [Expression.terminal?_of_isLeaf hl, Expression.terminal?_of_isLeaf hl']
    exact h.leaf l l' hl hl' hleaf
  roles := h.roles
  same := h.same

/-- The type behind the words agrees with that of the value. -/
theorem LeadsTo.typesAgree {root v : Value} {ws : List String} (hlenient : lenient)
    (h : LeadsTo ev root v ws) {found? : Option String}
    (hfound : typeFrom ev.mapping.model (Environment.typeHeld ev.world root) ws = some found?) :
    TypesAgree lenient ev.mapping (Environment.typeHeld ev.world v) found? := by
  cases h with
  | object _ htype =>
      obtain ⟨sup, rfl, hsharp⟩ := htype found? hfound
      exact Or.inr ⟨hlenient, Or.inr ⟨_, sup, rfl, rfl, hsharp⟩⟩
  | nothing => exact Or.inr ⟨hlenient, Or.inl rfl⟩

/-- What stands for a value leads wherever the value does. -/
theorem LeadsTo.followWords {root v : Value} {vs : List String} (h : LeadsTo ev root v vs)
    (ws : List String) :
    Expression.followWords ev v ws = Expression.followWords ev root (vs ++ ws) := by
  unfold Expression.followWords
  cases h with
  | object hvalue _ =>
      rw [Navigation.evaluateAll_append, hvalue]
      rfl
  | nothing hvalue =>
      -- From nothing every word leads to nothing, and that is the value null.
      have hjoined : Navigation.evaluateAll ev.mapping ev.world [root] (vs ++ ws) = .ok [] := by
        rw [Navigation.evaluateAll_append, hvalue]
        exact Navigation.evaluateAll_nil ws
      rw [hjoined, if_pos (show Value.null.isNull = true from rfl)]
      cases root.isNull <;> rfl

theorem EnvironmentsAgree.scopesAgree (h : EnvironmentsAgree lenient ev k ρ env env') :
    ScopesAgree lenient ev.mapping k ρ (env.scope ev.world) (env'.scope ev.world) := by
  intro n x ws href
  rw [Environment.find?_scope, Environment.find?_scope]
  rcases h.names n x ws href with ⟨rfl, hheld⟩ | ⟨hlenient, -, root, v, hx, hn, hleads⟩
  · rw [hheld]
    cases (env'.held x).getLast? with
    | none => exact Or.inl ⟨rfl, rfl, rfl⟩
    | some v =>
        exact Or.inr ⟨_, _, rfl, rfl, Or.inl rfl, Or.inr ⟨Environment.typeHeld ev.world v,
          typeFrom_nil _ _, TypesAgree.refl _⟩⟩
  · rw [hx, hn]
    refine Or.inr ⟨_, _, rfl, rfl, Or.inr (Or.inl hlenient), ?_⟩
    simp only
    cases hfrom : typeFrom ev.mapping.model (Environment.typeHeld ev.world root) ws with
    | none => exact Or.inl ⟨hfrom, hlenient⟩
    | some found? => exact Or.inr ⟨found?, hfrom, hleads.typesAgree hlenient hfrom⟩


/-- References that mean the same have the same value. -/
theorem EnvironmentsAgree.referenceValue (h : EnvironmentsAgree lenient ev k ρ env env')
    {n x : String} {vs : List String} (href : Refers k ρ n x vs) (ws : List String) :
    Expression.referenceValue ev env n ws = Expression.referenceValue ev env' x (vs ++ ws) := by
  unfold Expression.referenceValue
  rw [Environment.alias?_eq_head?, Environment.alias?_eq_head?]
  rcases h.names n x vs href with ⟨rfl, hheld⟩ | ⟨-, -, root, v, hx, hn, hleads⟩
  · rw [hheld]
    rfl
  · rw [hx, hn]
    exact hleads.followWords ws

/-! ## Binding partners -/

variable {qs : Definitions}

/-- Inside of a subselect its own aliases are unbound first. -/
theorem EnvironmentsAgree.unbind (h : EnvironmentsAgree lenient ev k ρ env env') :
    EnvironmentsAgree lenient ev k (qs.pairs ++ ρ) (env.unbindAliases qs.aliases)
      (env'.unbindAliases qs.aliases') := by
  refine h.withAliases fun n x ws href => ?_
  unfold StandsFor Environment.held
  rw [Bindings.held_unbindAll, Bindings.held_unbindAll]
  rcases href.append_cases with ⟨hmem, rfl⟩ | ⟨hfresh, href⟩
  · obtain ⟨q, hq, rfl, rfl⟩ := Definitions.mem_pairs_iff.mp hmem
    have hn : q.1.name ∈ qs.aliases := List.mem_map_of_mem (List.mem_map_of_mem hq)
    have hx : q.2.name ∈ qs.aliases' := List.mem_map_of_mem (List.mem_map_of_mem hq)
    exact Or.inl ⟨rfl, by rw [if_pos hn, if_pos hx]⟩
  · have hn : n ∉ qs.aliases := by
      intro hn
      obtain ⟨d, hd, rfl⟩ := List.mem_map.mp hn
      obtain ⟨q, hq, rfl⟩ := List.mem_map.mp hd
      exact (hfresh _ (Definitions.mem_pairs hq)).1 rfl
    have hx : x ∉ qs.aliases' := by
      intro hx
      obtain ⟨d, hd, rfl⟩ := List.mem_map.mp hx
      obtain ⟨q, hq, rfl⟩ := List.mem_map.mp hd
      exact (hfresh _ (Definitions.mem_pairs hq)).2 rfl
    rw [if_neg hn, if_neg hx]
    exact h.names n x ws href

/-- Whether a value can be that of both sides.  Only where their types differ there is
something to ask. -/
def Fits (ev : Evaluator) (type? type'? : Option String) (v : Value) : Prop :=
  type? = type'? ∨ v = .null ∨ ∃ id sub sup, v = .entity id ∧ type? = some sub ∧
    type'? = some sup ∧ ev.mapping.isInstance ev.world id sub ∧
    ev.mapping.isInstance ev.world id sup

/-- Combinations that bind partners to the same fitting values. -/
def VariantsAgree (ev : Evaluator) (qs : Definitions) (variant variant' : Bindings Value) :
    Prop :=
  List.Forall₂ (fun b b' => b.2 = b'.2 ∧
    ∃ q ∈ qs, q.1.name = b.1 ∧ q.2.name = b'.1 ∧ Fits ev q.1.type? q.2.type? b.2)
    variant variant'

/-- Every declared alias that is bound holds only fitting values. -/
def Fitting (ev : Evaluator) (qs : Definitions) (env : Environment) : Prop :=
  ∀ q ∈ qs, ∀ v ∈ env.held q.1.name, Fits ev q.1.type? q.2.type? v

theorem fitting_unbind (env : Environment) :
    Fitting ev qs (env.unbindAliases qs.aliases) := by
  intro q hq v hv
  have hmem : q.1.name ∈ qs.aliases := List.mem_map_of_mem (List.mem_map_of_mem hq)
  rw [Environment.held, Environment.unbindAliases, Bindings.held_unbindAll, if_pos hmem] at hv
  cases hv

theorem EnvironmentsAgree.bindPartners (honce : PairsOnce qs.Partners)
    (h : EnvironmentsAgree lenient ev k (qs.pairs ++ ρ) env env') {a b : String}
    (hab : qs.Partners a b) (v : Value) :
    EnvironmentsAgree lenient ev k (qs.pairs ++ ρ) (env.bindAlias a v) (env'.bindAlias b v) := by
  refine h.withAliases fun n x ws href => ?_
  have hnames := h.names n x ws href
  unfold StandsFor Environment.held at hnames ⊢
  rcases decides_append k ρ qs n x ws href with ⟨hnx, rfl⟩ | ⟨hn, hx⟩
  · have hiff := honce a b n x hab hnx
    refine Or.inl ⟨rfl, ?_⟩
    have hheld : Bindings.held env.aliases n = Bindings.held env'.aliases x := by
      rcases hnames with ⟨-, hheld⟩ | ⟨-, hne, -⟩
      · exact hheld
      · exact absurd rfl hne
    by_cases han : a = n
    · have hbx : b = x := hiff.mp han
      subst han hbx
      rw [Bindings.held_bind_self, Bindings.held_bind_self, hheld]
    · rw [Bindings.held_bind_of_ne _ _ han,
        Bindings.held_bind_of_ne _ _ fun hbx => han (hiff.mpr hbx), hheld]
  · obtain ⟨q, hq, rfl, rfl⟩ := Definitions.mem_pairs_iff.mp hab
    have han : q.1.name ≠ n := by
      rintro rfl
      exact hn (List.mem_map_of_mem (List.mem_map_of_mem hq))
    have hbx : q.2.name ≠ x := by
      rintro rfl
      exact hx (List.mem_map_of_mem (List.mem_map_of_mem hq))
    simp only [Bindings.held_bind_of_ne _ _ han, Bindings.held_bind_of_ne _ _ hbx]
    exact hnames

theorem EnvironmentsAgree.bindVariants (honce : PairsOnce qs.Partners)
    {variant variant' : Bindings Value} (hvariants : VariantsAgree ev qs variant variant')
    (h : EnvironmentsAgree lenient ev k (qs.pairs ++ ρ) env env') :
    EnvironmentsAgree lenient ev k (qs.pairs ++ ρ) (env.bindAliases variant)
      (env'.bindAliases variant') := by
  induction hvariants generalizing env env' with
  | nil => exact h
  | @cons b b' variant variant' hb _ ih =>
      obtain ⟨hvalue, q, hq, hleft, hright, -⟩ := hb
      have hstep := h.bindPartners honce (Definitions.partners_of_mem hq) b.2
      rw [hleft, hright] at hstep
      have hrest := ih hstep
      rw [hvalue] at hrest
      unfold Environment.bindAliases Bindings.bindAll
      rw [List.foldl_cons, List.foldl_cons, hvalue]
      exact hrest

end Agreement

end RowGuard
