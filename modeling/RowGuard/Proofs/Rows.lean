import RowGuard.Proofs.Restrictions

/-!
# Rows of restricted queries

A store looks at a row with the values of all parameters and without knowing who
is asking.  For such a row the condition of the query itself holds exactly as it
did before, since none of its parameters is touched, and the condition of a rule
holds as it does for the object at the end of the restricted path.
-/

namespace RowGuard

open Query (Label Phrase Statement)
open Query.Phrase
open Restriction

/-- What a store knows when it looks at a row. -/
def Environment.ofRow (row named : Bindings Value) (positional : List (Nat × Value))
    (now : Timestamp) : Environment :=
  { aliases := Bindings.ofList row, named, positional, now }

/-- The truth of the condition of a statement, which holds if there is none. -/
def Evaluator.truthOf? (ev : Evaluator) (env : Environment) :
    Option Phrase → Traced (Option Bool)
  | none => return some true
  | some condition => ev.truth env condition

/-! ## Related truths -/

namespace Traced

variable {x y : Traced (Option Bool)}

theorem Agree.outcome_eq_ok_iff {α : Type} {x y : Traced α} (h : Agree False Eq x y) (a : α) :
    x.outcome = .ok a ↔ y.outcome = .ok a := by
  unfold Agree at h
  cases hx : x.outcome with
  | ok b =>
      cases hy : y.outcome with
      | ok b' =>
          rw [hx, hy] at h
          rw [show b = b' from h]
      | error e =>
          rw [hx, hy] at h
          exact h.1.elim
  | error e =>
      cases hy : y.outcome with
      | ok b =>
          rw [hx, hy] at h
          exact h.1.elim
      | error e' => simp

theorem Agree.holdsOrFails {lenient : Prop} (h : Agree lenient Eq x y)
    (hx : x.outcome = .ok (some true)) : Expression.HoldsOrFails y := by
  intro b hb
  unfold Agree at h
  rw [hx, hb] at h
  exact (show some true = b from h).symm

theorem Agree.holdsOrFails_left {lenient : Prop} (h : Agree lenient Eq x y)
    (hy : y.outcome = .ok (some true)) : Expression.HoldsOrFails x := by
  intro b hb
  unfold Agree at h
  rw [hy, hb] at h
  exact h

end Traced

/-! ## Nesting -/

theorem depth_bracketed (t : Phrase) : (bracketed t).depth = t.depth := by
  unfold bracketed
  split
  · rfl
  · simp [build, depth, depthAll]

theorem depth_le_depthAll {t : Phrase} {ts : List Phrase} (h : t ∈ ts) :
    t.depth ≤ depthAll ts := by
  induction ts with
  | nil => cases h
  | cons u ts ih =>
      rw [depthAll]
      rcases List.mem_cons.mp h with rfl | h
      · exact Nat.le_max_left _ _
      · exact Nat.le_trans (ih h) (Nat.le_max_right _ _)

theorem depth_le_joined (l : Label) {t : Phrase} {ts : List Phrase} (h : t ∈ ts) :
    t.depth ≤ (joined l ts).depth := by
  unfold joined
  split
  · exact Nat.le_of_eq (congrArg depth (List.mem_singleton.mp h))
  · rw [build, depth]
    exact Nat.le_trans (depth_le_depthAll h) (Nat.le_add_right _ _)

theorem Restriction.depth_le_anyOf {t : Phrase} {cs : List Phrase} (h : t ∈ cs) :
    t.depth ≤ (anyOf cs).depth := by
  rw [anyOf, depth_bracketed, ← depth_bracketed t]
  exact depth_le_joined .or (List.mem_map_of_mem h)

mutual

/-- Taking memberships in no roles for false nests nothing deeper. -/
theorem Restriction.depth_settle_le {c : SecurityContext} :
    ∀ t : Phrase, (settle c t).depth ≤ t.depth
  | .node l ts s => by
      by_cases hask : AskRoles l ts
      · obtain ⟨t, ds, r⟩ := hask
        rw [settle_isIn]
        split
        · exact Nat.zero_le _
        · have hfirst := depth_settle_le (c := c) t
          simp only [depth, depthAll]
          omega
      · rw [settle_node hask, depth, depth]
        exact Nat.add_le_add_right (depthAll_settleAll_le ts) _

theorem Restriction.depthAll_settleAll_le {c : SecurityContext} :
    ∀ ts : List Phrase, depthAll (settleAll c ts) ≤ depthAll ts
  | [] => Nat.le_refl _
  | t :: ts => by
      have hfirst := depth_settle_le (c := c) t
      have hrest := depthAll_settleAll_le (c := c) ts
      rw [settleAll, depthAll, depthAll]
      omega

end

/-! ## The condition of a restricted statement -/

section Demands

variable {model? : Option Query.TypeModel} {t : Phrase} {s : Statement} {ev : Evaluator}
  {env : Environment} {found : List Phrase}

/-- Where the condition of a restricted statement holds, so does all that it asks for. -/
theorem truthAt_demands (hs : Statement.ofPhrase model? t = .ok s)
    (h : (ev.truthOf? env (addRestrictions s found).conditionOf?).outcome = .ok (some true)) :
    ∃ n, ∀ u ∈ demands s found, u.depth ≤ n ∧ (ev.truthAt n env u).outcome = .ok (some true) := by
  rw [conditionOf?_addRestrictions (Statement.condition?_of_ofPhrase hs)] at h
  split at h
  · rename_i hnone
    subst hnone
    unfold demands
    cases hcondition : s.condition? with
    | none => exact ⟨0, by simp⟩
    | some condition =>
        rw [hcondition] at h
        refine ⟨condition.depth, fun u hu => ?_⟩
        obtain rfl : u = bracketed condition := by simpa using hu
        rw [depth_bracketed]
        refine ⟨Nat.le_refl _, ?_⟩
        unfold Evaluator.truthAt
        rw [Expression.truthOf_bracketed]
        rw [Evaluator.truthOf?, Evaluator.truth_eq] at h
        exact h
  · rename_i hfound
    have hne : demands s found ≠ [] := by simp [demands, hfound]
    refine ⟨(conjunction (demands s found)).depth, fun u hu => ⟨depth_le_joined .and hu, ?_⟩⟩
    rw [Evaluator.truthOf?, Evaluator.truth_eq] at h
    exact Expression.conjunction_eq_true hne h u hu

/-- Where all that a restricted statement asks for holds or fails, its condition does. -/
theorem holdsOrFails_addRestrictions (hs : Statement.ofPhrase model? t = .ok s)
    (h : ∀ n, ∀ u ∈ demands s found, u.depth ≤ n → Expression.HoldsOrFails (ev.truthAt n env u)) :
    Expression.HoldsOrFails (ev.truthOf? env (addRestrictions s found).conditionOf?) := by
  rw [conditionOf?_addRestrictions (Statement.condition?_of_ofPhrase hs)]
  split
  · rename_i hnone
    subst hnone
    cases hcondition : s.condition? with
    | none =>
        intro b hb
        exact (Except.ok.inj hb).symm
    | some condition =>
        have hone := h condition.depth (bracketed condition) (by simp [demands, hcondition])
          (Nat.le_of_eq (depth_bracketed condition))
        unfold Evaluator.truthAt at hone
        rw [Expression.truthOf_bracketed] at hone
        rw [Evaluator.truthOf?, Evaluator.truth_eq]
        exact hone
  · rename_i hfound
    have hne : demands s found ≠ [] := by simp [demands, hfound]
    rw [Evaluator.truthOf?, Evaluator.truth_eq]
    exact Expression.conjunction_holdsOrFails hne fun u hu => h _ u hu (depth_le_joined .and hu)

end Demands

/-! ## The query's own condition -/

/-- Everything stands for itself, and no other parameters occur than some. -/
def Link.own (names : List String) : Link where
  free n x ws := n = x ∧ ws = []
  leaf l m := l = m ∧ ∀ name, l = .namedParameter name → name ∈ names
  roles _ := False
  exact := False

theorem Bindings.find?_bindAll_of_not_mem {α : Type} (bs : Bindings α) {more : Bindings α}
    {name : String} (hfree : name ∉ more.names) :
    (bs.bindAll more).find? name = bs.find? name := by
  rw [find?_eq_head?_held, find?_eq_head?_held, held_bindAll_of_not_mem bs more hfree]

section Rows

variable {ev : Evaluator} {row user values : Bindings Value} {positional : List (Nat × Value)}
  {now : Timestamp}

/-- Parameters that a query does not have mean nothing to it. -/
theorem agree_own {names : List String} (hfresh : ∀ name ∈ names, name ∉ values.names) :
    EnvironmentsAgree False ev (Link.own names) [] (.ofRow row user positional now)
      (.ofRow row (user.bindAll values) positional now) where
  names n x ws href := by
    obtain ⟨rfl, rfl⟩ := Refers.nil_iff.mp href
    exact Or.inl ⟨rfl, rfl⟩
  leaf l l' hl _ hleaf := by
    obtain ⟨rfl, hnames⟩ := hleaf
    cases l with
    | namedParameter name =>
        simp only [Expression.terminal?, Environment.named?, Environment.ofRow]
        rw [Bindings.find?_bindAll_of_not_mem user (hfresh name (hnames name rfl))]
    | _ => rfl
  roles _ h := h.elim
  same h := h.elim

/-- The query's own condition says the same with the values of other parameters. -/
theorem truth_own (hsimple : ev.strategies = [.simple]) {names : List String}
    (hfresh : ∀ name ∈ names, name ∉ values.names) {condition : Phrase}
    (hwell : condition.WellFormed) (hnames : ∀ n ∈ condition.nodes, ∀ name,
      n.label = .namedParameter name → name ∈ names) {n : Nat} (hn : condition.depth ≤ n) :
    Traced.Agree False Eq (ev.truth (.ofRow row user positional now) condition)
      (ev.truthAt n (.ofRow row (user.bindAll values) positional now) condition) := by
  have hself : Corresponds (Link.own names) condition.depth condition.depth [] condition
      condition :=
    hwell.corresponds (k := Link.own names) (fun n hn _ => ⟨rfl, hnames n hn⟩) (by simp [Diagonal])
      (fun _ _ => Or.inr ⟨rfl, rfl⟩) (Nat.le_refl _)
  rw [Evaluator.truth_eq]
  exact Evaluator.truthAt_agree (by simp [hsimple]) (agree_own hfresh) hself (Nat.le_refl _) hn

/-! ## The object at the end of a path -/

theorem Bindings.held_ofList {x : String} {v : Value} (h : (ofList row).find? x = some v) :
    (ofList row).held x = [v] :=
  held_eq_singleton (length_held_bindAll_le [] row x (by simp)) h

theorem Value.collapse_eq_entity {vs : List Value} {e : ObjectId}
    (h : Value.collapse vs = .entity e) : vs = [.entity e] := by
  match vs, h with
  | [v], h => rw [show v = .entity e from h]

/-- Only from an object do words lead to an object. -/
theorem entity_of_evaluateAll {root : Value} (hroot : root.isNull = false) {ws : List String}
    {e : ObjectId}
    (h : Navigation.evaluateAll ev.mapping ev.world [root] ws = .ok [.entity e]) :
    ∃ source, root = .entity source := by
  have hroots : Navigation.notNull [root] = [root] := by simp [Navigation.notNull, hroot]
  rw [Navigation.evaluateAll, hroots] at h
  cases ws with
  | nil => exact ⟨e, List.head_eq_of_cons_eq (Except.ok.inj h)⟩
  | cons w ws =>
      obtain ⟨reached, hreached, -⟩ := Query.Scope.ok_of_bind h
      obtain ⟨held, hheld, -⟩ := Query.Scope.ok_of_bind hreached
      rw [List.mapM_cons] at hheld
      obtain ⟨first, hfirst, -⟩ := Query.Scope.ok_of_bind hheld
      cases root with
      | entity source => exact ⟨source, rfl⟩
      | _ => cases hfirst

/-- Where a path leads to an object, it starts at an object. -/
theorem exists_source {path : String} (hwords : ∀ w ∈ Text.Dotted.parts path, IsWord w)
    {e : ObjectId} (h : (ev.value (.ofRow row user positional now) (ofDotted path)).run.outcome =
      .ok (some (.entity e))) :
    ∃ source, Bindings.find? (Bindings.ofList row) (Text.Dotted.first path) =
        some (.entity source) ∧
      Navigation.evaluateAll ev.mapping ev.world [.entity source] (Text.Dotted.others path) =
        .ok [.entity e] := by
  have hreference : (ofDotted path).IsReference (Text.Dotted.first path)
      (Text.Dotted.others path) := isReference_path rfl hwords
  rw [Evaluator.value, Evaluator.valueAt_reference _ _ hreference] at h
  have hvalue : Expression.referenceValue ev (.ofRow row user positional now)
      (Text.Dotted.first path) (Text.Dotted.others path) = .ok (some (.entity e)) := h
  unfold Expression.referenceValue at hvalue
  split at hvalue
  · cases hvalue
  · rename_i root hroot
    unfold Expression.followWords at hvalue
    split at hvalue
    · cases hvalue
    · rename_i hnull
      obtain ⟨vs, hvs, hcollapsed⟩ := Query.Scope.ok_of_bind hvalue
      have hreached := Value.collapse_eq_entity (Option.some.inj (Except.ok.inj hcollapsed))
      subst hreached
      obtain ⟨source, rfl⟩ := entity_of_evaluateAll (by simpa using hnull) hvs
      exact ⟨source, hroot, hvs⟩

/-! ## The condition of a rule -/

variable {c : SecurityContext} {a x : String} {ps : List String} {e : ObjectId}

/-- With the values of all parameters, a row is to the path what the context and the
object are to the subject of a rule. -/
theorem agree_placing
    (hheld : ∀ name v, values.find? name = some v → user.find? name = some v)
    {source : ObjectId}
    (hsource : Bindings.find? (Bindings.ofList row) x = some (.entity source))
    (hleads : Navigation.evaluateAll ev.mapping ev.world [.entity source] ps = .ok [.entity e])
    (htyped : TypedAlong ev source e ps) :
    EnvironmentsAgree True ev ((Link.placing a x ps).binding c values) []
      ((ruleEnvironment c now).bindAlias a (.entity e)) (.ofRow row user positional now) where
  names n y ws href := by
    obtain ⟨rfl, rfl, rfl⟩ := Refers.nil_iff.mp href
    have hsubject : ((ruleEnvironment c now).bindAlias n (.entity e)).held n = [.entity e] :=
      Bindings.held_bind_self [] n _
    have hrow := Bindings.held_ofList hsource
    by_cases hnil : ws = []
    · subst hnil
      obtain rfl : source = e := by
        have hsame : Value.entity source = .entity e :=
          List.head_eq_of_cons_eq (Except.ok.inj hleads)
        cases hsame
        rfl
      exact Or.inl ⟨rfl, hsubject.trans hrow.symm⟩
    · exact Or.inr ⟨trivial, hnil, _, _, hrow, hsubject, .object hleads htyped⟩
  leaf l l' _ _ hleaf := by
    cases hleaf with
    | context h => simp [Expression.terminal?, ruleEnvironment, Environment.bindAlias,
        Environment.named?, Environment.ofRow, hheld _ _ h]
    | named h h' =>
        simp only [Expression.terminal?, ruleEnvironment, Environment.bindAlias,
          Environment.named?, Environment.ofRow, hheld _ _ h']
        rw [← h]
        rfl
    | constant hconstant => cases l <;> first | rfl | cases hconstant
  roles names h := by
    obtain ⟨hvalues, hcollections⟩ := h
    exact ⟨c, rfl, Bindings.Extends.map_find? hheld hvalues, hcollections⟩
  same h := h.elim

end Rows

end RowGuard
