import RowGuard.Proofs.Rows

/-!
# Objects as the mapping has them

Where objects hold what the mapping declares, each step of a path from objects of
a type leads to objects of the type that the mapping tells for the step.  So the
mapping tells the truth of every path, if subtypes keep the properties that they
inherit.
-/

namespace RowGuard

open Query (PropertyType)
open Query.Scope (typeAlong typeFrom)

namespace Mapping

/-- An object of a mapped class that can stand for a type. -/
def IsObjectOf (m : Mapping) (w : World) (type : String) (v : Value) : Prop :=
  ∃ id, v = .entity id ∧ ∃ k ∈ m.concreteClasses type, k.name = w.typeOf id

/-- What a property of some kind may hold. -/
def Admits (m : Mapping) (w : World) : PropertyType → Value → Prop
  | .basic, v => v.entity? = none ∧ (∀ items, v ≠ .collection items) ∧ ∀ items, v ≠ .tuple items
  | .entity target, v => v = .null ∨ m.IsObjectOf w target v
  | .collection target, v => ∃ items, v = .collection items ∧ ∀ i ∈ items, m.IsObjectOf w target i

/-- Whatever an object holds under a mapped property is what the property may hold. -/
def Conforms (m : Mapping) (w : World) : Prop :=
  ∀ id property type, m.propertyType? (w.typeOf id) property = some type →
    ∀ v, w.property? id property = some v → m.Admits w type v

/-- Subtypes have all properties of their supertypes, with the same kinds and targets. -/
def KeepsProperties (m : Mapping) : Prop :=
  ∀ sub sup, m.isAssignable sub sup → Sharpens m sub sup

theorem isAssignable_refl (m : Mapping) (type : String) : m.isAssignable type type := by
  simp [isAssignable]

theorem IsObjectOf.isAssignable {m : Mapping} {w : World} {type : String} {id : ObjectId}
    (h : m.IsObjectOf w type (.entity id)) : m.isAssignable (w.typeOf id) type := by
  obtain ⟨_, heq, k, hk, hname⟩ := h
  cases heq
  rw [← hname]
  have hk := (List.mem_filter.mp hk).2
  rw [Bool.and_eq_true] at hk
  exact hk.2

theorem IsObjectOf.exists_isInstance {m : Mapping} {w : World} {type : String} {v : Value}
    (h : m.IsObjectOf w type v) : ∃ id, v = .entity id ∧ m.isInstance w id type := by
  obtain ⟨id, rfl, hclass⟩ := h
  exact ⟨id, rfl, IsObjectOf.isAssignable ⟨id, rfl, hclass⟩⟩

end Mapping

theorem Sharpens.refl (m : Mapping) (type : String) : Sharpens m type type :=
  ⟨m.isAssignable_refl type, fun _ _ h => h⟩

/-- Without supertypes there is nothing to inherit. -/
theorem Mapping.keepsProperties_of_no_parents {m : Mapping}
    (h : ∀ c ∈ m.classes, c.parents = []) : m.KeepsProperties := by
  intro sub sup hassignable
  have hnone : ∀ left, Mapping.reaches sup left [] = false := fun left => by
    rw [Mapping.reaches]
  have hreaches : Mapping.reaches sup m.classes [sub] = false := by
    rw [Mapping.reaches]
    split
    · exact hnone _
    · rename_i c hfound
      rw [h c (List.mem_of_find?_eq_some hfound)]
      simp [hnone]
  rw [Mapping.isAssignable, hreaches, Bool.or_false, beq_iff_eq] at hassignable
  exact hassignable ▸ Sharpens.refl m sub

/-- Objects are as the mapping has them if each of their properties is. -/
theorem Mapping.conforms_of_objects {m : Mapping} {w : World}
    (h : ∀ o ∈ w.objects, ∀ b ∈ o.properties, ∀ type,
      m.propertyType? o.type b.1 = some type → m.Admits w type b.2) : m.Conforms w := by
  intro id property type htype v hv
  obtain ⟨o, ho, hfound⟩ := Option.bind_eq_some_iff.mp hv
  have htypeOf : w.typeOf id = o.type := by rw [World.typeOf, ho]
  obtain ⟨_, _, hheld, -⟩ := List.lookup_eq_some_iff.mp hfound
  rw [htypeOf] at htype
  exact h o (List.mem_of_getElem? ho) (property, v) (by simp [hheld]) type htype

/-! ## One step -/

namespace Navigation

variable {m : Mapping} {w : World} {sup segment : String} {vs reached : List Value}

theorem subset_firstMeetings (met : List ObjectId) (vs : List Value) :
    firstMeetings met vs ⊆ vs := by
  induction vs generalizing met with
  | nil => simp [firstMeetings]
  | cons v vs ih =>
      have hrest : ∀ met, firstMeetings met vs ⊆ v :: vs :=
        fun met => List.subset_cons_of_subset v (ih met)
      cases v with
      | entity id =>
          rw [firstMeetings]
          split
          · exact hrest met
          · exact List.cons_subset.mpr ⟨by simp, hrest _⟩
      | _ => exact List.cons_subset.mpr ⟨by simp, hrest met⟩

/-- What is reached is held by one of the values that the step is made from. -/
theorem exists_of_mem_advance (h : advance m w vs segment = .ok reached) {v : Value}
    (hv : v ∈ reached) :
    v.isNull = false ∧ ∃ root ∈ vs, ∃ held, step m w segment root = .ok held ∧ v ∈ opened held := by
  obtain ⟨helds, hhelds, h⟩ := Query.Scope.ok_of_bind h
  have hmem : v ∈ notNull (helds.flatMap opened) := by
    have heq := Except.ok.inj h
    split at heq
    · exact subset_firstMeetings [] _ (heq ▸ hv)
    · exact heq ▸ hv
  obtain ⟨hopened, hnull⟩ := List.mem_filter.mp hmem
  obtain ⟨held, hheld, hv⟩ := List.mem_flatMap.mp hopened
  obtain ⟨root, hroot, hstep⟩ := exists_of_mem_mapM hhelds hheld
  exact ⟨by simpa using hnull, root, hroot, held, hstep, hv⟩

/-- An object holds under a mapped property what the property may hold, if anything. -/
theorem admits_of_read (hconforms : m.Conforms w) {id : ObjectId} {type : PropertyType}
    (htype : m.propertyType? (w.typeOf id) segment = some type) {held : Value}
    (h : read m w id segment = .ok held) : held = .null ∨ m.Admits w type held := by
  have hholds : ∀ v, w.property? id segment = some v → m.Admits w type v :=
    hconforms id segment type htype
  unfold read at h
  simp only at h
  split at h
  · split at h
    · cases hproperty : w.property? id segment with
      | none =>
          rw [hproperty] at h
          exact Or.inl (Except.ok.inj h).symm
      | some v =>
          rw [hproperty] at h
          rw [← show v = held from Except.ok.inj h]
          exact Or.inr (hholds v hproperty)
    · cases h
  · cases hproperty : w.property? id segment with
    | none =>
        rw [hproperty] at h
        cases h
    | some v =>
        rw [hproperty] at h
        rw [← show v = held from Except.ok.inj h]
        exact Or.inr (hholds v hproperty)

/-- What a step from objects of a type reaches is held under the property as the mapping
has it. -/
theorem exists_admitted (hconforms : m.Conforms w) (hkeeps : m.KeepsProperties)
    (hvs : ∀ v ∈ vs, ∀ id, v = .entity id → m.isAssignable (w.typeOf id) sup)
    {type : PropertyType} (htype : m.propertyType? sup segment = some type)
    (h : advance m w vs segment = .ok reached) {v : Value} (hv : v ∈ reached) :
    v.isNull = false ∧ ∃ held, m.Admits w type held ∧ v ∈ opened held := by
  obtain ⟨hnull, root, hroot, held, hstep, hopened⟩ := exists_of_mem_advance h hv
  cases root with
  | entity owner =>
      have hown := (hkeeps _ _ (hvs _ hroot owner rfl)).2 segment type htype
      rcases admits_of_read hconforms hown hstep with rfl | hadmits
      · obtain rfl : v = .null := by simpa [opened] using hopened
        cases hnull
      · exact ⟨hnull, held, hadmits, hopened⟩
  | _ => cases hstep

/-- Under a property with a target, only objects of the target are held. -/
theorem isObjectOf_of_admitted {type : PropertyType} {target : String} {held v : Value}
    (h : m.Admits w type held) (hopened : v ∈ opened held) (hnull : v.isNull = false)
    (htarget : type.target? = some target) : m.IsObjectOf w target v := by
  cases type with
  | basic => cases htarget
  | entity _ =>
      cases htarget
      rcases h with rfl | ⟨other, rfl, hclass⟩
      · obtain rfl : v = .null := by simpa [opened] using hopened
        cases hnull
      · obtain rfl : v = .entity other := by simpa [opened] using hopened
        exact ⟨other, rfl, hclass⟩
  | collection _ =>
      cases htarget
      obtain ⟨items, rfl, hitems⟩ := h
      exact hitems v hopened

/-- A step from objects of a type leads to objects of the type behind it, or to no objects
at all where there is none. -/
theorem typed_advance (hconforms : m.Conforms w) (hkeeps : m.KeepsProperties)
    (hvs : ∀ v ∈ vs, ∀ id, v = .entity id → m.isAssignable (w.typeOf id) sup)
    {type : PropertyType} (htype : m.propertyType? sup segment = some type)
    (h : advance m w vs segment = .ok reached) :
    ∀ v ∈ reached, ∀ id, v = .entity id →
      ∃ target, type.target? = some target ∧ m.isAssignable (w.typeOf id) target := by
  rintro v hv id rfl
  obtain ⟨hnull, held, hadmits, hopened⟩ := exists_admitted hconforms hkeeps hvs htype h hv
  cases htarget : type.target? with
  | some target =>
      exact ⟨target, rfl, (isObjectOf_of_admitted hadmits hopened hnull htarget).isAssignable⟩
  | none =>
      obtain rfl : type = .basic := by cases type <;> first | rfl | cases htarget
      obtain ⟨hentity, hcollection, -⟩ := hadmits
      cases held with
      | collection items => exact absurd rfl (hcollection items)
      | entity id => cases hentity
      | _ => simp [opened] at hopened

end Navigation

/-! ## Paths -/

variable {ev : Evaluator} {source e : ObjectId}

/-- Where objects are as the mapping has them, it tells the truth of every path. -/
theorem typedAlong_of_conforms (hconforms : ev.mapping.Conforms ev.world)
    (hkeeps : ev.mapping.KeepsProperties) {ws : List String}
    (hleads : Navigation.evaluateAll ev.mapping ev.world [.entity source] ws =
      .ok [.entity e]) : TypedAlong ev source e ws := by
  -- No object that is reached on the way is of a type that the mapping does not tell.
  have hall : ∀ (ws : List String) (vs : List Value) (sup : String) (found? : Option String),
      (∀ v ∈ vs, ∀ id, v = .entity id → ev.mapping.isAssignable (ev.world.typeOf id) sup) →
      ws.foldlM (Navigation.advance ev.mapping ev.world) vs = .ok [.entity e] →
      typeAlong ev.mapping.model (some sup) ws = some found? →
        ∃ target, found? = some target ∧
          ev.mapping.isAssignable (ev.world.typeOf e) target := by
    intro ws
    induction ws with
    | nil =>
        intro vs sup found? hvs hleads hfound
        obtain rfl := Except.ok.inj hleads
        exact ⟨sup, (Option.some.inj hfound).symm, hvs _ (by simp) e rfl⟩
    | cons w ws ih =>
        intro vs sup found? hvs hleads hfound
        rw [List.foldlM_cons] at hleads
        obtain ⟨reached, hreached, hleads⟩ := Query.Scope.ok_of_bind hleads
        rw [typeAlong] at hfound
        split at hfound
        · cases hfound
        · rename_i type htype
          have hstep := Navigation.typed_advance hconforms hkeeps hvs htype hreached
          cases htarget : type.target? with
          | some target =>
              rw [htarget] at hfound
              refine ih reached target found? (fun v hv id hid => ?_) hleads hfound
              obtain ⟨other, hother, hassignable⟩ := hstep v hv id hid
              obtain rfl := Option.some.inj (htarget.symm.trans hother)
              exact hassignable
          | none =>
              rw [htarget] at hfound
              cases ws with
              | nil =>
                  obtain rfl := Except.ok.inj hleads
                  obtain ⟨other, hother, -⟩ := hstep _ (by simp) e rfl
                  cases htarget.symm.trans hother
              | cons => cases hfound
  intro found? hfound
  obtain ⟨sup, rfl, hassignable⟩ := hall ws [.entity source] (ev.world.typeOf source) found?
    (fun v hv id hid => by
      obtain rfl := List.mem_singleton.mp hv
      cases hid
      exact ev.mapping.isAssignable_refl _) hleads hfound
  exact ⟨sup, rfl, hkeeps _ _ hassignable⟩

end RowGuard
