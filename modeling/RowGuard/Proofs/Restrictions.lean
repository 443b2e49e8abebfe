import RowGuard.Proofs.Instantiations
import RowGuard.Proofs.Queries

/-!
# What restrictions say

The parameters of a restriction go from rule to rule and from path to path, and
each of them keeps its value.  So what a single rule has become holds of the
values that a restriction ends with, and each condition that a restriction asks
for is made of such rules.
-/

namespace RowGuard

open Query (AccessKind Label Phrase)
open Query.Phrase

namespace Restriction

variable {c : SecurityContext} {before taken : List String}

/-! ## One rule -/

mutual

/-- Whatever is bound, the parameters stay faithful. -/
theorem binds_bindContext : ∀ t : Phrase,
    Binds c before (bindContext c t) fun _ _ => True
  | .node l ts s => by
      by_cases hparameter : isParameter l = true
      · cases l with
        | context item =>
            rw [bindContext]
            exact (binds_parameterFor _).mono fun _ _ _ => trivial
        | namedParameter name =>
            rw [bindContext]
            exact (binds_parameterFor _).mono fun _ _ _ => trivial
        | _ => cases hparameter
      · rw [Bool.not_eq_true] at hparameter
        by_cases hask : AskRoles l ts
        · obtain ⟨t, ds, r⟩ := hask
          cases hroles : c.roles.isEmpty with
          | true =>
              rw [bindContext_isIn_of_no_roles hroles]
              exact .pure fun _ => trivial
          | false =>
              rw [bindContext_isIn hroles]
              exact binds_roleParameters.bind fun _ => (binds_bindContext t).bind fun _ =>
                .pure fun _ _ _ => trivial
        · rw [bindContext_node hparameter hask]
          exact (binds_bindContextAll ts).bind fun _ => .pure fun _ _ => trivial

theorem binds_bindContextAll : ∀ ts : List Phrase,
    Binds c before (bindContextAll c ts) fun _ _ => True
  | [] => .pure fun _ => trivial
  | t :: ts => by
      rw [bindContextAll]
      exact (binds_bindContext t).bind fun _ => (binds_bindContextAll ts).bind fun _ =>
        .pure fun _ _ _ => trivial

end

/-- What it takes for the condition of a rule to say for a path what it says for an
object: keeping its aliases apart changes neither what it says nor what its subject
means in it, and the roles that it asks for are single values. -/
structure Transfers (c : SecurityContext) (taken : List String) (r : AccessRule)
    (condition : Phrase) : Prop where
  apart : ∃ i j, Corresponds (Link.renaming r.subject) i j [] condition
    (separate id taken condition).1
  ordered : DeclaredInOrder r.subject (separate id taken condition).1
  roles : SingleRoles c condition

/-- What the condition of a rule has become for a path: something that never holds if
the context cannot bind it, and else what it says of the object at the end of the
path, but for memberships in no roles. -/
def Becomes (c : SecurityContext) (taken : List String) (path : String) (r : AccessRule)
    (values : Bindings Value) (t : Phrase) : Prop :=
  ∀ condition, r.condition? = some condition →
    (isUnbindable c condition = true ∧ t = alwaysFalse) ∨
    isUnbindable c condition = false ∧ (Transfers c taken r condition →
      ∃ i j, Corresponds ((Link.placing r.subject (Text.Dotted.first path)
        (Text.Dotted.others path)).binding c values) i j [] (settle c condition) t)

theorem plain_placing (a x : String) (ps : List String) : (Link.placing a x ps).Plain :=
  ⟨fun _ _ h => h, fun _ h => h⟩

theorem binds_instantiate {path : String} {r : AccessRule}
    (hwords : ∀ w ∈ Text.Dotted.parts path, IsWord w) (hroot : Text.Dotted.first path ∈ taken)
    (hsound : ∀ condition, r.condition? = some condition → Query.Grammar.Sound condition) :
    Binds c before (instantiate c taken path r) (Becomes c taken path r) := by
  unfold instantiate
  cases hcondition : r.condition? with
  | none =>
      apply Binds.pure
      intro values condition h
      cases hcondition.symm.trans h
  | some condition =>
      cases hbindable : isUnbindable c condition with
      | true =>
          simp only [hbindable, if_true]
          apply Binds.pure
          intro values other h
          obtain rfl := Option.some.inj (hcondition.symm.trans h)
          exact Or.inl ⟨hbindable, rfl⟩
      | false =>
          simp only [hbindable, Bool.false_eq_true, if_false]
          by_cases htransfers : Transfers c taken r condition
          · obtain ⟨⟨i, j, hapart⟩, hordered, hroles⟩ := htransfers
            have hreference : (ofDotted path).IsReference (Text.Dotted.first path)
                (Text.Dotted.others path) := isReference_path rfl hwords
            have hplaced := hapart.substitute (Link.places_renaming _ _ _) hreference (by simp)
              (by simp) (notDeclared_separate (hsound condition hcondition) hroot) hordered
            refine (hplaced.bindContext (plain_placing _ _ _)
              (bindable_of_not_isUnbindable hbindable) hroles).mono ?_
            intro values t ht other h
            obtain rfl := Option.some.inj (hcondition.symm.trans h)
            exact Or.inr ⟨hbindable, fun _ => ⟨i, j, ht⟩⟩
          · apply (binds_bindContext _).mono
            intro values t _ other h
            obtain rfl := Option.some.inj (hcondition.symm.trans h)
            exact Or.inr ⟨hbindable, fun h => absurd h htransfers⟩

/-! ## All rules -/

variable {ev : Evaluator} {now : Timestamp} {path : String} {rules : List AccessRule}
  {state final : ContextParameters}

/-- What is known of the single rules is known of all conditions that they leave, and
each rule leaves one unless it denies. -/
theorem Instantiated.binds {Q : AccessRule → Bindings Value → Phrase → Prop} {cs : List Phrase}
    (h : Instantiated ev c now taken path rules state cs final)
    (hbinds : ∀ r ∈ rules, Binds c before (instantiate c taken path r) (Q r))
    (hstate : Faithful c before state) :
    Faithful c before final ∧ state.values.Extends final.values ∧
      ∀ values : Bindings Value, final.values.Extends values →
        (∀ t ∈ cs, ∃ r ∈ rules, (verdict ev c now r).outcome = .ok .depends ∧ Q r values t) ∧
        ∀ r ∈ rules, (verdict ev c now r).outcome = .ok .denied ∨
          (verdict ev c now r).outcome = .ok .depends ∧ ∃ t ∈ cs, Q r values t := by
  induction h with
  | nil state => exact ⟨hstate, Bindings.Extends.refl _, fun values _ => by simp⟩
  | @denied r rest state final cs hverdict _ ih =>
      obtain ⟨hfaithful, hextends, hall⟩ :=
        ih (fun r hr => hbinds r (List.mem_cons_of_mem _ hr)) hstate
      refine ⟨hfaithful, hextends, fun values hvalues => ?_⟩
      obtain ⟨hmade, hleft⟩ := hall values hvalues
      refine ⟨fun t ht => ?_, List.forall_mem_cons.mpr ⟨Or.inl hverdict, hleft⟩⟩
      obtain ⟨g, hg, hq⟩ := hmade t ht
      exact ⟨g, List.mem_cons_of_mem _ hg, hq⟩
  | @depends r rest state between final t cs hverdict hrun _ ih =>
      obtain ⟨hfaithful, hextends, hq⟩ := hbinds r (by simp) state hstate
      rw [hrun] at hfaithful hextends hq
      obtain ⟨hfaithful', hextends', hall⟩ :=
        ih (fun r hr => hbinds r (List.mem_cons_of_mem _ hr)) hfaithful
      refine ⟨hfaithful', hextends.trans hextends', fun values hvalues => ?_⟩
      obtain ⟨hmade, hleft⟩ := hall values hvalues
      have hfirst := hq values (hextends'.trans hvalues)
      constructor
      · refine List.forall_mem_cons.mpr ⟨⟨r, by simp, hverdict, hfirst⟩, fun u hu => ?_⟩
        obtain ⟨g, hg, hq⟩ := hmade u hu
        exact ⟨g, List.mem_cons_of_mem _ hg, hq⟩
      · refine List.forall_mem_cons.mpr ⟨Or.inr ⟨hverdict, t, by simp, hfirst⟩, fun g hg => ?_⟩
        refine (hleft g hg).imp_right ?_
        rintro ⟨hdepends, u, hu, hq⟩
        exact ⟨hdepends, u, List.mem_cons_of_mem _ hu, hq⟩

/-! ## All paths -/

/-- A condition that asks for one of those that some rules leave. -/
structure Asks (ev : Evaluator) (c : SecurityContext) (now : Timestamp) (rules : List AccessRule)
    (Q : AccessRule → Phrase → Prop) (t : Phrase) (cs : List Phrase) : Prop where
  eq : t = anyOf cs
  ne_nil : cs ≠ []
  made : ∀ u ∈ cs, ∃ r ∈ rules, (verdict ev c now r).outcome = .ok .depends ∧ Q r u
  left : ∀ r ∈ rules, (verdict ev c now r).outcome = .ok .denied ∨
    (verdict ev c now r).outcome = .ok .depends ∧ ∃ u ∈ cs, Q r u

variable {policy : Policy} {kind : AccessKind} {paths : List (String × String)}

/-- Some rule grants access to all that a path leads to, or else a restriction asks for
one of the conditions of its rules, and it asks for nothing else. -/
theorem Restricted.binds {Q : String → AccessRule → Bindings Value → Phrase → Prop}
    {found : List Phrase} (h : Restricted ev policy kind c now taken paths state found final)
    (hbinds : ∀ p ∈ paths, ∀ r ∈ policy.rulesForType ev.mapping p.2 kind,
      Binds c before (instantiate c taken p.1 r) (Q p.1 r))
    (hstate : Faithful c before state) :
    Faithful c before final ∧ state.values.Extends final.values ∧
      ∀ values : Bindings Value, final.values.Extends values →
        (∀ p ∈ paths, (∃ r ∈ policy.rulesForType ev.mapping p.2 kind,
            (verdict ev c now r).outcome = .ok .granted) ∨
          ∃ t ∈ found, ∃ cs, Asks ev c now (policy.rulesForType ev.mapping p.2 kind)
            (fun r => Q p.1 r values) t cs) ∧
        ∀ t ∈ found, ∃ p ∈ paths, ∃ cs, Asks ev c now
          (policy.rulesForType ev.mapping p.2 kind) (fun r => Q p.1 r values) t cs := by
  induction h with
  | nil state => exact ⟨hstate, Bindings.Extends.refl _, fun values _ => by simp⟩
  | @granted path type rest state between final found hgranted _ ih =>
      obtain ⟨earlier, r, later, cs, heq, hverdict, hearlier⟩ := hgranted
      have hhead := hbinds (path, type) (by simp)
      simp only [heq] at hhead
      obtain ⟨hfaithful, hextends, -⟩ :=
        hearlier.binds (fun r hr => hhead r (List.mem_append_left _ hr)) hstate
      obtain ⟨hfaithful', hextends', hall⟩ :=
        ih (fun p hp => hbinds p (List.mem_cons_of_mem _ hp)) hfaithful
      refine ⟨hfaithful', hextends.trans hextends', fun values hvalues => ?_⟩
      obtain ⟨hpaths, hfound⟩ := hall values hvalues
      refine ⟨List.forall_mem_cons.mpr ⟨Or.inl ⟨r, by simp [heq], hverdict⟩, hpaths⟩,
        fun t ht => ?_⟩
      obtain ⟨p, hp, hasks⟩ := hfound t ht
      exact ⟨p, List.mem_cons_of_mem _ hp, hasks⟩
  | @required path type rest state between final cs found hne hmade _ ih =>
      obtain ⟨hfaithful, hextends, hrules⟩ := hmade.binds (hbinds (path, type) (by simp)) hstate
      obtain ⟨hfaithful', hextends', hall⟩ :=
        ih (fun p hp => hbinds p (List.mem_cons_of_mem _ hp)) hfaithful
      refine ⟨hfaithful', hextends.trans hextends', fun values hvalues => ?_⟩
      obtain ⟨hpaths, hfound⟩ := hall values hvalues
      obtain ⟨hmade, hleft⟩ := hrules values (hextends'.trans hvalues)
      have hasks : Asks ev c now (policy.rulesForType ev.mapping type kind)
          (fun r => Q path r values) (anyOf cs) cs := ⟨rfl, hne, hmade, hleft⟩
      constructor
      · refine List.forall_mem_cons.mpr ⟨Or.inr ⟨anyOf cs, by simp, cs, hasks⟩, fun p hp => ?_⟩
        refine (hpaths p hp).imp_right ?_
        rintro ⟨t, ht, hasks⟩
        exact ⟨t, List.mem_cons_of_mem _ ht, hasks⟩
      · refine List.forall_mem_cons.mpr ⟨⟨(path, type), by simp, cs, hasks⟩, fun t ht => ?_⟩
        obtain ⟨p, hp, hasks⟩ := hfound t ht
        exact ⟨p, List.mem_cons_of_mem _ hp, hasks⟩

end Restriction

end RowGuard
