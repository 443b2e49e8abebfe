import RowGuard.Proofs.Lookups
import RowGuard.Proofs.TypeSoundness

/-!
# Values behind a path that is put for an alias

A path may take the place of an alias whose value it leads to.  What is evaluated
then follows the path first and goes on as it did from the value.  Where the path
leads to an object, the mapping tells a type for the path that the object has or
refines; where it leads to null, so does everything behind it.  Inside of subselects
the path is read with the aliases around them, so they must not declare its root.
-/

namespace RowGuard

open Query (Label Phrase)
open Query.Phrase
open Restriction

variable {a x : String} {ps : List String}

/-! ## Links -/

/-- Everything stands for itself. -/
def Link.itself : Link where
  free n x ws := x = n ∧ ws = []
  leaf l m := l = m
  roles _ := False
  exact := False

/-- A path stands for one name, and everything else for itself. -/
def Link.grafting (a x : String) (ps : List String) : Link where
  free n y ws := if n = a then y = x ∧ ws = ps else y = n ∧ ws = []
  leaf l m := l = m
  roles _ := False
  exact := False

theorem Link.places_grafting (a x : String) (ps : List String) :
    Link.Places Link.itself (Link.grafting a x ps) a x ps where
  leaf _ _ h := h
  roles _ := id
  exact := id
  plain _ _ _ h := h.2
  put n h := by
    obtain ⟨rfl, -⟩ := h
    simp [grafting]
  other n y hne h := by
    obtain ⟨rfl, -⟩ := h
    simp [grafting, hne]

/-! ## Names that joins declare -/

/-- Whether the path of a join starts at a name. -/
def startsAt (a : String) (j : Phrase) : Bool := (j.child? 0).bind rootAlias? == some a

/-- Where a subselect declares a name by a join, neither that join nor an earlier one
starts at the name. -/
def ShadowsInOrder (a : String) (t : Phrase) : Prop :=
  ∀ u ∈ t.nodes, u.label = .subselect →
    (∀ j ∈ joinsOf (fromItems u), startsAt a j → j.declaredAlias? ≠ some a) ∧
    (joinsOf (fromItems u)).Pairwise fun i j => startsAt a i → j.declaredAlias? ≠ some a

instance (a : String) (t : Phrase) : Decidable (ShadowsInOrder a t) :=
  inferInstanceAs (Decidable (∀ u ∈ t.nodes, u.label = .subselect →
    (∀ j ∈ joinsOf (fromItems u), startsAt a j → j.declaredAlias? ≠ some a) ∧
    (joinsOf (fromItems u)).Pairwise fun i j => startsAt a i → j.declaredAlias? ≠ some a))

instance (x : String) (t : Phrase) : Decidable (NotDeclared x t) :=
  inferInstanceAs (Decidable (∀ u ∈ t.nodes, u.label = .subselect → x ∉ u.declaredAliases))

theorem declaredAliases_eq_fromItems (u : Phrase) :
    u.declaredAliases = rangeAliases (fromItems u) ++
      (joinsOf (fromItems u)).filterMap declaredAlias? := by
  unfold declaredAliases fromItems
  cases u.findChild? (· = .fromClause) with
  | none => rfl
  | some clause => simp [rangeAliases, joinsOf, List.filterMap_flatMap]

/-- Joins that do not start at a name up to its declaration. -/
theorem joinsWithin_of_pairwise {names : List String} {js : List Phrase}
    (hjs : ∀ j ∈ js, j.IsJoin) (hself : ∀ j ∈ js, startsAt a j → j.declaredAlias? ≠ some a)
    (hpairwise : js.Pairwise fun i j => startsAt a i → j.declaredAlias? ≠ some a)
    (ha : a ∈ names ∨ a ∈ js.filterMap declaredAlias?) : JoinsWithin (· ≠ a) names js := by
  induction js generalizing names with
  | nil => exact .nil names
  | cons j js ih =>
      obtain ⟨hj, hjs⟩ := List.forall_mem_cons.mp hjs
      obtain ⟨hfirst, hself⟩ := List.forall_mem_cons.mp hself
      obtain ⟨hbefore, hpairwise⟩ := List.pairwise_cons.mp hpairwise
      have hroot : ∀ n, (j.child? 0).bind rootAlias? = some n → n ∈ names ∨ n ≠ a := by
        rintro n hn
        by_contra hnot
        rw [not_or, not_not] at hnot
        obtain ⟨hnames, rfl⟩ := hnot
        have hstarts : startsAt n j := by rw [startsAt, hn, beq_self_eq_true]
        obtain ⟨k, hk, hdeclared⟩ := List.mem_filterMap.mp (ha.resolve_left hnames)
        rcases List.mem_cons.mp hk with rfl | hk
        · exact hfirst hstarts hdeclared
        · exact hbefore k hk hstarts hdeclared
      have hrest := fun names ha => @ih names hjs hself hpairwise ha
      cases hj with
      | bare outer fetch s hp =>
          exact .bare outer fetch s hp (hroot _ hp.rootAlias?_eq) (hrest names ha)
      | @named p n b ws outer fetch s r hp hb =>
          refine .named outer fetch s r hp (hroot _ hp.rootAlias?_eq) hb (hrest (b :: names) ?_)
          have hdeclared : List.filterMap declaredAlias? (Phrase.node (.join outer fetch)
              [p, .node (.identifier b) [] r] s :: js) = b :: js.filterMap declaredAlias? := rfl
          rw [hdeclared, List.mem_cons] at ha
          rw [List.mem_cons]
          tauto

theorem ShadowsInOrder.declaredInOrder {t : Phrase} (ht : t.WellFormed)
    (h : ShadowsInOrder a t) : DeclaredInOrder a t := by
  intro u hu hlabel ha
  obtain ⟨hself, hpairwise⟩ := h u hu hlabel
  rw [declaredAliases_eq_fromItems, List.mem_append] at ha
  exact joinsWithin_of_pairwise (isJoin_of_sound (Query.Grammar.sound_of_within ht) hu hlabel)
    hself hpairwise ha

/-! ## Where paths lead -/

variable {ev : Evaluator}

/-- A path with the value null leads to nothing. -/
theorem leadsTo_null {root : Value}
    (h : Expression.followWords ev root ps = .ok (some .null)) : LeadsTo ev root .null ps := by
  refine .nothing ?_
  unfold Expression.followWords at h
  split at h
  · rename_i hnull
    have hroots : Navigation.notNull [root] = [] := by simp [Navigation.notNull, hnull]
    rw [Navigation.evaluateAll, hroots]
    exact Navigation.evaluateAll_nil ps
  · obtain ⟨reached, hreached, hcollapsed⟩ := Query.Scope.ok_of_bind h
    have hcollapsed := Option.some.inj (Except.ok.inj hcollapsed)
    have hnull := Navigation.not_isNull_of_mem_evaluateAll hreached
    rcases reached with _ | ⟨first, _ | ⟨second, more⟩⟩
    · exact hreached
    · obtain rfl : first = .null := hcollapsed
      exact absurd (hnull .null List.mem_cons_self) (by decide)
    · cases hcollapsed

/-- Where objects are as the mapping has them, a path with an object for its value leads to it. -/
theorem leadsTo_entity (hconforms : ev.mapping.Conforms ev.world)
    (hkeeps : ev.mapping.KeepsProperties) {root : Value} {e : ObjectId}
    (h : Expression.followWords ev root ps = .ok (some (.entity e))) :
    LeadsTo ev root (.entity e) ps := by
  unfold Expression.followWords at h
  split at h
  · cases h
  · rename_i hnull
    obtain ⟨reached, hreached, hcollapsed⟩ := Query.Scope.ok_of_bind h
    obtain rfl := Value.collapse_eq_entity (Option.some.inj (Except.ok.inj hcollapsed))
    obtain ⟨source, rfl⟩ := entity_of_evaluateAll (by simpa using hnull) hreached
    exact .object hreached (typedAlong_of_conforms hconforms hkeeps hreached)

/-! ## Environments -/

/-- An alias holds what a path leads to on the other side. -/
theorem agree_grafting {env : Environment} (hnodup : env.aliases.names.Nodup) {root v : Value}
    (hroot : env.alias? x = some root) (hleads : LeadsTo ev root v ps)
    (hself : ps = [] → v = root) :
    EnvironmentsAgree True ev (Link.grafting a x ps) [] (env.bindAlias a v) env where
  names n y ws href := by
    have hfree := Refers.nil_iff.mp href
    by_cases hn : n = a
    · subst hn
      obtain ⟨rfl, rfl⟩ : y = x ∧ ws = ps := by simpa [Link.grafting] using hfree
      have hx : env.held y = [root] :=
        Bindings.held_eq_singleton (Bindings.length_held_le hnodup y) hroot
      have ha : (env.bindAlias n v).held n = [v] := by
        have htail : (env.aliases.held n).tail = [] := List.length_eq_zero_iff.mp
          (by rw [List.length_tail]; exact Nat.sub_eq_zero_of_le (Bindings.length_held_le hnodup n))
        rw [Environment.held, Environment.bindAlias, Bindings.held_bind_self, htail]
      by_cases hnil : ws = []
      · exact Or.inl ⟨hnil, by rw [ha, hx, hself hnil]⟩
      · exact Or.inr ⟨trivial, hnil, root, v, hx, ha, hleads⟩
    · obtain ⟨rfl, rfl⟩ : y = n ∧ ws = [] := by simpa [Link.grafting, hn] using hfree
      exact Or.inl ⟨rfl, Bindings.held_bind_of_ne _ _ (Ne.symm hn)⟩
  leaf l l' hl _ hleaf := by
    obtain rfl : l = l' := hleaf
    exact Expression.terminal?_of_isLeaf hl env _
  roles _ h := h.elim
  same h := h.elim

/-! ## Putting a path for an alias -/

/-- Putting a path for an alias makes no difference to a condition where the alias is bound to
the value of the path, an object or null, unless one of the two fails.  Subselects may declare
the alias anew, but not the root of the path. -/
theorem Evaluator.value_substitute (hsimple : .persistenceSession ∉ ev.strategies)
    (hconforms : ev.mapping.Conforms ev.world) (hkeeps : ev.mapping.KeepsProperties)
    {c p : Phrase} (hc : c.WellFormed) (hp : p.IsReference x ps) (hx : NotDeclared x c)
    (ha : ShadowsInOrder a c) {env : Environment} (hnodup : env.aliases.names.Nodup) {v : Value}
    (hvalue : (ev.value env p).run.outcome = .ok (some v)) (hv : v = .null ∨ ∃ e, v = .entity e)
    {found? found'? : Option Value}
    (hplaced : (ev.value env (substitute a p c)).run.outcome = .ok found?)
    (hbound : (ev.value (env.bindAlias a v) c).run.outcome = .ok found'?) : found? = found'? := by
  have hself : Corresponds Link.itself c.depth c.depth [] c c :=
    hc.corresponds (k := Link.itself) (fun _ _ _ => rfl) (by simp [Diagonal])
      (fun _ _ => Or.inr ⟨rfl, rfl⟩) (Nat.le_refl _)
  have hcorresponds := hself.substitute (Link.places_grafting a x ps) hp (by simp) (by simp) hx
    (ha.declaredInOrder hc)
  rw [Evaluator.value, Evaluator.valueAt_reference _ _ hp] at hvalue
  have hfollowed : Expression.referenceValue ev env x ps = .ok (some v) := hvalue
  unfold Expression.referenceValue at hfollowed
  cases hroot : env.alias? x with
  | none =>
      rw [hroot] at hfollowed
      cases hfollowed
  | some root =>
      simp only [hroot] at hfollowed
      have hleads : LeadsTo ev root v ps := by
        rcases hv with rfl | ⟨e, rfl⟩
        · exact leadsTo_null hfollowed
        · exact leadsTo_entity hconforms hkeeps hfollowed
      have hagree := agree_grafting (a := a) hnodup hroot hleads fun hnil => by
        subst hnil
        rw [Expression.followWords_nil] at hfollowed
        exact (Option.some.inj (Except.ok.inj hfollowed)).symm
      have hvalues := Evaluator.value_agree (fun h => absurd h hsimple) hagree hcorresponds
      unfold Eval.Agree Traced.Agree at hvalues
      rw [hbound, hplaced] at hvalues
      exact Eq.symm hvalues

/-! ## Minutes in a binder -/

namespace Restriction

/-- An outer join starts at the subject, and a subselect further in declares its name. -/
def outermostRule : String :=
  "GRANT READ ACCESS TO Document f WHERE EXISTS (SELECT g FROM Document g " ++
    "LEFT JOIN f.binder h WHERE g = f AND h IS NULL AND " ++
      "EXISTS (SELECT f FROM Document f WHERE f = g))"

def withDocument (id : ObjectId) : Environment where
  aliases := [("x", .entity id)]
  now := default

/-- The minutes lie in a binder, and the binder in none. -/
theorem value_substitute_binder : ∃ rules r condition,
    AccessRule.ofText binderEvaluator.mapping 0 outermostRule = .ok rules ∧ r ∈ rules ∧
    r.condition? = some condition ∧
    ∀ b ∈ [((0 : ObjectId), Value.entity 1), (1, .null)], ∃ found? found'?,
      (binderEvaluator.value (withDocument b.1) (ofDotted "x.binder")).run.outcome =
        .ok (some b.2) ∧
      (binderEvaluator.value (withDocument b.1) (substitute r.subject (ofDotted "x.binder")
        condition)).run.outcome = .ok found? ∧
      (binderEvaluator.value ((withDocument b.1).bindAlias r.subject b.2)
        condition).run.outcome = .ok found'? ∧ found? = found'? := by
  have hfound : (AccessRule.ofText binderEvaluator.mapping 0 outermostRule).toOption.any
      fun rules => rules.head?.any fun r => r.condition?.any fun condition =>
        decide (NotDeclared "x" condition ∧ ShadowsInOrder r.subject condition) &&
        [((0 : ObjectId), Value.entity 1), (1, .null)].all fun b =>
          ((binderEvaluator.value (withDocument b.1) (substitute r.subject (ofDotted "x.binder")
            condition)).run.outcome.toOption.any fun _ => true) &&
          (binderEvaluator.value ((withDocument b.1).bindAlias r.subject b.2)
            condition).run.outcome.toOption.any fun _ => true := by
    decide +kernel
  obtain ⟨rules, hrules, hfound⟩ := Query.Scope.ok_of_any hfound
  obtain ⟨r, hr, hfound⟩ := (Option.any_eq_true _ _).mp hfound
  obtain ⟨condition, hcondition, hfound⟩ := (Option.any_eq_true _ _).mp hfound
  simp only [Bool.and_eq_true, decide_eq_true_eq, List.all_eq_true] at hfound
  obtain ⟨⟨hx, ha⟩, hfound⟩ := hfound
  have hr := List.mem_of_head? hr
  have hwell : condition.WellFormed :=
    (AccessRule.checked_condition hrules hr hcondition).1.mono fun _ _ => trivial
  have hpath : (ofDotted "x.binder").IsReference "x" ["binder"] := isReference_path rfl (by decide)
  refine ⟨rules, r, condition, hrules, hr, hcondition, fun b hb => ?_⟩
  obtain ⟨hvalue, hkind⟩ : (binderEvaluator.value (withDocument b.1)
      (ofDotted "x.binder")).run.outcome = .ok (some b.2) ∧
        (b.2 = .null ∨ ∃ e, b.2 = .entity e) := by
    rw [Evaluator.value, Evaluator.valueAt_reference _ _ hpath]
    rcases List.mem_pair.mp hb with rfl | rfl
    · exact ⟨by with_unfolding_all rfl, Or.inr ⟨1, rfl⟩⟩
    · exact ⟨by with_unfolding_all rfl, Or.inl rfl⟩
  obtain ⟨found?, hplaced, -⟩ := Query.Scope.ok_of_any (hfound b hb).1
  obtain ⟨found'?, hbound, -⟩ := Query.Scope.ok_of_any (hfound b hb).2
  exact ⟨found?, found'?, hvalue, hplaced, hbound,
    Evaluator.value_substitute (by decide) conforms_binder keepsProperties_binder hwell hpath hx ha
      (by simp [withDocument, Bindings.names]) hvalue hkind hplaced hbound⟩

end Restriction

end RowGuard
