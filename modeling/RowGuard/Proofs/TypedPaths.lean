import RowGuard.Proofs.Assignments
import RowGuard.Proofs.Conformity
import RowGuard.Proofs.Inheritance
import RowGuard.Proofs.Misfits
import RowGuard.Proofs.Typing

/-!
# Typed paths

Where objects are as the mapping has them, a path whose type is told can be followed
to its end.  From objects of a type each step finds the property on every one of them,
and what it reaches suits the type that the mapping tells for the step.  So a scope
that is true of an environment is true of all that its references lead to.
-/

namespace RowGuard

open Query (AliasDefinition Phrase PropertyType)
open Query.Scope

/-! ## Paths -/

section Paths

variable {ev : Evaluator} {sup segment : String} {vs : List Value}

theorem Navigation.safe_step (hkeeps : ev.mapping.KeepsProperties) {type : PropertyType}
    (htype : ev.mapping.propertyType? sup segment = some type) {v : Value}
    (hv : Suits ev (some sup) v) : Outcome.Safe (step ev.mapping ev.world segment v) := by
  obtain ⟨id, rfl, hinstance⟩ := hv sup rfl
  have hown : ev.mapping.propertyType? (ev.world.typeOf id) segment = some type :=
    (hkeeps _ _ hinstance).2 segment type htype
  obtain ⟨p, hp, -⟩ := Option.map_eq_some_iff.mp hown
  obtain ⟨held, hread⟩ := Mapping.read_of_property? (Option.isSome_of_eq_some hp)
  show Outcome.Safe (read ev.mapping ev.world id segment)
  rw [hread]
  exact trivial

/-- A step from objects of a type succeeds, and everything it reaches suits the type that
the mapping tells for the step. -/
theorem Navigation.lands_advance (hconforms : ev.mapping.Conforms ev.world)
    (hkeeps : ev.mapping.KeepsProperties) {type : PropertyType}
    (htype : ev.mapping.propertyType? sup segment = some type)
    (hvs : ∀ v ∈ vs, Suits ev (some sup) v) :
    Outcome.Lands (fun reached => ∀ v ∈ reached, Suits ev type.target? v)
      (advance ev.mapping ev.world vs segment) := by
  have hsafe : Outcome.Safe (advance ev.mapping ev.world vs segment) :=
    Outcome.Lands.bind (Outcome.Safe.mapM fun v hv => safe_step hkeeps htype (hvs v hv))
      fun _ _ => trivial
  have hassignable : ∀ v ∈ vs, ∀ id, v = .entity id →
      ev.mapping.isAssignable (ev.world.typeOf id) sup := by
    rintro v hv id rfl
    obtain ⟨_, ⟨⟩, hinstance⟩ := hvs _ hv sup rfl
    exact hinstance
  apply hsafe.lands
  intro reached hreached v hv target htarget
  obtain ⟨hnull, held, hadmits, hopened⟩ :=
    exists_admitted hconforms hkeeps hassignable htype hreached hv
  exact (isObjectOf_of_admitted hadmits hopened hnull htarget).exists_isInstance

theorem Navigation.lands_advances (hconforms : ev.mapping.Conforms ev.world)
    (hkeeps : ev.mapping.KeepsProperties) {type? found? : Option String} {ws : List String}
    (h : typeAlong ev.mapping.model type? ws = some found?) (hvs : ∀ v ∈ vs, Suits ev type? v) :
    Outcome.Lands (fun reached => ∀ v ∈ reached, Suits ev found? v)
      (ws.foldlM (advance ev.mapping ev.world) vs) := by
  induction ws generalizing vs type? with
  | nil =>
      cases type? <;> cases h <;> exact hvs
  | cons w ws ih =>
      cases type? with
      | none => cases h
      | some sup =>
          rw [typeAlong] at h
          split at h
          · cases h
          · rename_i type htype
            rw [List.foldlM_cons]
            exact Outcome.Lands.bind (lands_advance hconforms hkeeps htype hvs)
              fun reached hreached => ih h hreached

theorem Value.suits_of_mem_collapse {type? : Option String} (hvs : ∀ v ∈ vs, Suits ev type? v)
    {c : Value} (hc : c ∈ (collapse vs).items) : Suits ev type? c := by
  intro type htype
  match vs, hvs, hc with
  | [], _, hc => cases hc
  | [v], hvs, hc =>
      obtain ⟨id, rfl, hinstance⟩ := hvs v (by simp) type htype
      rw [List.mem_singleton.mp hc]
      exact ⟨id, rfl, hinstance⟩
  | v :: u :: vs, hvs, hc => exact hvs c hc type htype

/-- Whatever a reference leads to suits the type that is told for it. -/
theorem Expression.lands_followWords (hconforms : ev.mapping.Conforms ev.world)
    (hkeeps : ev.mapping.KeepsProperties) {type? found? : Option String} {ws : List String}
    (h : typeAlong ev.mapping.model type? ws = some found?) {root : Value}
    (hroot : root = .null ∨ Suits ev type? root) :
    Outcome.Lands (fun v? => ∀ v, v? = some v → ∀ c ∈ v.items, Suits ev found? c)
      (followWords ev root ws) := by
  unfold followWords
  split
  · rintro v ⟨⟩ c hc
    cases hc
  · rename_i hnull
    have hsuits : ∀ v ∈ Navigation.notNull [root], Suits ev type? v := by
      intro v hv
      rw [List.mem_singleton.mp (List.mem_of_mem_filter hv)]
      apply hroot.resolve_left
      rintro rfl
      exact hnull rfl
    apply Outcome.Lands.bind (Navigation.lands_advances hconforms hkeeps h hsuits)
    rintro vs hvs v ⟨⟩ c hc
    exact Value.suits_of_mem_collapse hvs hc

end Paths

/-! ## Environments -/

/-- Every bound alias stands for null or for what suits the type that the scope has for it. -/
def Environment.Respects (ev : Evaluator) (scope : List AliasDefinition) (env : Environment) :
    Prop :=
  ∀ x d v, find? scope x = some d → env.alias? x = some v → v = .null ∨ Suits ev d.type? v

section Environments

variable {ev : Evaluator} {scope ds : List AliasDefinition} {env : Environment}

theorem lands_reference (hconforms : ev.mapping.Conforms ev.world)
    (hkeeps : ev.mapping.KeepsProperties) (henv : env.Respects ev scope) {x : String}
    {ws : List String} {type? : Option String} (h : Tells ev.mapping.model scope x ws type?) :
    Outcome.Lands (fun v? => ∀ v, v? = some v → ∀ c ∈ v.items, Suits ev type? c)
      (Expression.referenceValue ev env x ws) := by
  obtain ⟨d, hfind, halong⟩ := h
  unfold Expression.referenceValue
  cases hroot : env.alias? x with
  | none =>
      rintro v ⟨⟩
  | some root =>
      exact Expression.lands_followWords hconforms hkeeps halong (henv x d root hfind hroot)

namespace Environment

theorem Respects.bindAlias (h : env.Respects ev scope) {n : String} {d : AliasDefinition}
    (hn : find? scope n = some d) {c : Value} (hc : c = .null ∨ Suits ev d.type? c) :
    (env.bindAlias n c).Respects ev scope := by
  intro x e v hx hv
  by_cases hname : x = n
  · subst hname
    cases hn.symm.trans hx
    have hbound : (env.bindAlias x c).alias? x = some c := Bindings.find?_bind_self _ _ _
    cases hbound.symm.trans hv
    exact hc
  · apply h x e v hx
    have hkept : (env.bindAlias n c).alias? x = env.alias? x :=
      Bindings.find?_bind_of_ne _ _ hname
    rw [← hkept]
    exact hv

/-- Inside a subselect nothing is known of its aliases until they are bound. -/
theorem Respects.unbind (h : env.Respects ev scope) :
    (env.unbindAliases (names ds)).Respects ev (scope ++ ds) := by
  intro x d v hx hv
  rw [alias?_eq_head?, held, unbindAliases, Bindings.held_unbindAll] at hv
  split at hv
  · cases hv
  · rename_i hfree
    rw [find?_append_of_not_mem hfree] at hx
    apply h x d v hx
    rw [alias?_eq_head?]
    exact hv

end Environment

end Environments

end RowGuard
