import RowGuard.Navigation
import RowGuard.Proofs.Subtypes

/-!
# Inherited properties

A type has the properties that its class declares and those that superclass references
lead to.  What a class implements has no say in it: an interface makes objects of one type
objects of another, but none of its properties becomes theirs.  So a supertype that is
found along superclasses has no property that the subtype is without, even where the
references run in a circle, and a supertype behind an interface may have some.
-/

namespace RowGuard.Mapping

open Relation (ReflTransGen)

variable {left : List EntityClass} {m : Mapping} {name type sub sup property : String}
  {c d : EntityClass}

/-- Among some classes, one has a type as its superclass. -/
def Extends (left : List EntityClass) (sub sup : String) : Prop :=
  ∃ c, lookUp left sub = some c ∧ c.superclass? = some sup

/-- Superclass references alone lead from a type to another one. -/
def Inherits (m : Mapping) (sub sup : String) : Prop := ReflTransGen (Extends m.classes) sub sup

theorem Extends.refers (h : Extends left sub sup) : Refers left sub sup := by
  obtain ⟨c, hc, hsup⟩ := h
  exact ⟨c, hc, by simp [EntityClass.parents, hsup]⟩

theorem Extends.of_without (h : Extends (without left name) sub sup) : Extends left sub sup := by
  obtain ⟨d, hd, hsup⟩ := h
  exact ⟨d, (lookUp_of_without hd).2, hsup⟩

theorem Inherits.isAssignable (h : m.Inherits sub sup) : m.isAssignable sub sup :=
  isAssignable_iff.mpr (ReflTransGen.mono (fun _ _ => Extends.refers) _ _ h)

/-! ## Lineages -/

/-- Past its last visit to a class, a chain of superclasses does without it. -/
theorem reflTransGen_without {parent : String} (hc : lookUp left name = some c)
    (hparent : c.superclass? = some parent) (h : ReflTransGen (Extends left) sub sup) :
    sup = name ∨ ReflTransGen (Extends (without left name)) sub sup ∨
      ReflTransGen (Extends (without left name)) parent sup := by
  induction h using ReflTransGen.head_induction_on with
  | refl => exact Or.inr (Or.inl .refl)
  | head hfirst _ ih =>
      obtain heq | hrest | hrest := ih
      · exact Or.inl heq
      · rename_i start next _
        obtain ⟨d, hd, hnext⟩ := hfirst
        by_cases hname : start = name
        · subst hname
          obtain rfl := Option.some.inj (hc.symm.trans hd)
          obtain rfl := Option.some.inj (hparent.symm.trans hnext)
          exact Or.inr (Or.inr hrest)
        · exact Or.inr (Or.inl (.head ⟨d, (lookUp_without hname).trans hd, hnext⟩ hrest))
      · exact Or.inr (Or.inr hrest)

/-- A type that extends nothing inherits from itself alone. -/
theorem eq_of_reflTransGen (hnone : ∀ next, ¬ Extends left sub next)
    (h : ReflTransGen (Extends left) sub sup) : sup = sub := by
  obtain heq | ⟨next, hfirst, -⟩ := ReflTransGen.cases_head h
  · exact heq.symm
  · exact absurd hfirst (hnone next)

theorem not_extends_of_unmapped (hnone : lookUp left name = none) (next : String) :
    ¬ Extends left name next := by
  rintro ⟨d, hd, -⟩
  cases hnone.symm.trans hd

theorem lineageWithin_of_some (hc : lookUp left name = some c) :
    lineageWithin left name =
      c :: c.superclass?.elim [] (lineageWithin (without left name)) := by
  rw [lineageWithin]
  split
  · rename_i hnone
    cases hnone.symm.trans hc
  · rename_i d hd
    obtain rfl := Option.some.inj (hd.symm.trans hc)
    cases d.superclass? <;> rfl

/-- The lineage of a name has the classes that superclass references lead to. -/
theorem mem_lineageWithin_iff : d ∈ lineageWithin left name ↔
    ∃ type, ReflTransGen (Extends left) name type ∧ lookUp left type = some d := by
  fun_induction lineageWithin left name with
  | case1 left name hnone =>
      refine iff_of_false List.not_mem_nil ?_
      rintro ⟨type, hchain, htype⟩
      obtain rfl := eq_of_reflTransGen (not_extends_of_unmapped hnone) hchain
      cases hnone.symm.trans htype
  | case2 left name c hc hsuper =>
      rw [List.mem_singleton]
      constructor
      · rintro rfl
        exact ⟨name, .refl, hc⟩
      · rintro ⟨type, hchain, htype⟩
        have hlast : ∀ next, ¬ Extends left name next := by
          rintro next ⟨e, he, hnext⟩
          obtain rfl := Option.some.inj (hc.symm.trans he)
          cases hsuper.symm.trans hnext
        obtain rfl := eq_of_reflTransGen hlast hchain
        exact Option.some.inj (htype.symm.trans hc)
  | case3 left name c hc parent hsuper ih =>
      rw [List.mem_cons, ih]
      constructor
      · rintro (rfl | ⟨type, hchain, htype⟩)
        · exact ⟨name, .refl, hc⟩
        · have hleft := ReflTransGen.mono (fun _ _ => Extends.of_without) _ _ hchain
          exact ⟨type, .head ⟨c, hc, hsuper⟩ hleft, (lookUp_of_without htype).2⟩
      · rintro ⟨type, hchain, htype⟩
        by_cases hname : type = name
        · subst hname
          exact Or.inl (Option.some.inj (htype.symm.trans hc))
        · have hrest := (lookUp_without hname).trans htype
          obtain heq | hchain | hchain := reflTransGen_without hc hsuper hchain
          · exact absurd heq hname
          · exact absurd (eq_of_reflTransGen (not_extends_of_unmapped lookUp_without_self) hchain)
              hname
          · exact Or.inr ⟨type, hchain, hrest⟩

theorem mem_lineage_iff : d ∈ m.lineage name ↔
    ∃ type, m.Inherits name type ∧ m.class? type = some d := mem_lineageWithin_iff

/-- A type has the properties that it or a class it inherits from declares. -/
theorem isSome_property?_iff : (m.property? type property).isSome ↔
    ∃ sup c, m.Inherits type sup ∧ m.class? sup = some c ∧ (c.declared? property).isSome := by
  rw [property?, List.findSome?_isSome_iff]
  simp only [mem_lineage_iff]
  constructor
  · rintro ⟨c, ⟨sup, hsup, hc⟩, hdeclared⟩
    exact ⟨sup, c, hsup, hc, hdeclared⟩
  · rintro ⟨sup, c, hsup, hc, hdeclared⟩
    exact ⟨c, ⟨sup, hsup, hc⟩, hdeclared⟩

/-- A type with properties is mapped. -/
theorem maps_of_property? (h : (m.property? type property).isSome) : m.maps type := by
  obtain ⟨sup, c, hsup, hc, -⟩ := isSome_property?_iff.mp h
  obtain rfl | ⟨next, ⟨d, hd, -⟩, -⟩ := ReflTransGen.cases_head hsup
  · exact Option.isSome_of_eq_some hc
  · exact Option.isSome_of_eq_some hd

/-- An object whose type has a property holds something under it. -/
theorem read_of_property? {w : World} {id : ObjectId}
    (h : (m.property? (w.typeOf id) property).isSome) :
    ∃ v, Navigation.read m w id property = .ok v := by
  refine ⟨(w.property? id property).getD .null, ?_⟩
  simp only [Navigation.read, maps_of_property? h, h, if_true]

/-! ## Inheritance -/

/-- What a type has, all types that inherit from it over superclasses have, and their objects
can be asked for it.  Beyond superclasses nothing is inherited: each property of a type is
declared by its class or by one that it inherits from in this way. -/
theorem properties_follow_superclasses (m : Mapping) (sub : String) :
    (∀ sup, m.Inherits sub sup → m.isAssignable sub sup ∧
      ∀ property, (m.property? sup property).isSome → (m.property? sub property).isSome ∧
        ∀ (w : World) id, w.typeOf id = sub → ∃ v, Navigation.read m w id property = .ok v) ∧
    ∀ property, (m.property? sub property).isSome ↔ ∃ sup c, m.Inherits sub sup ∧
      m.class? sup = some c ∧ (c.declared? property).isSome := by
  refine ⟨fun sup hsup => ⟨hsup.isAssignable, fun property hproperty => ?_⟩,
    fun property => isSome_property?_iff⟩
  obtain ⟨owner, c, howner, hc, hdeclared⟩ := isSome_property?_iff.mp hproperty
  have hsub : (m.property? sub property).isSome :=
    isSome_property?_iff.mpr ⟨owner, c, hsup.trans howner, hc, hdeclared⟩
  refine ⟨hsub, ?_⟩
  rintro w id rfl
  exact read_of_property? hsub

/-- Documents inherit an identity from items, and they implement what has owners. -/
def itemMapping : Mapping where
  classes := [
    { name := "Item", isAbstract := true, idProperty? := some "id",
      properties := [⟨"id", .basic⟩] },
    { name := "Owned", isAbstract := true, properties := [⟨"owner", .basic⟩] },
    { name := "Document", superclass? := some "Item", interfaces := ["Owned"] }]

theorem inherits_itemMapping : itemMapping.Inherits "Document" "Item" :=
  .single ⟨_, rfl, rfl⟩

theorem properties_follow_superclasses_document :
    itemMapping.Inherits "Document" "Item" ∧ itemMapping.isAssignable "Document" "Item" ∧
      (itemMapping.property? "Item" "id").isSome ∧
      (itemMapping.property? "Document" "id").isSome := by
  have hid : (itemMapping.property? "Item" "id").isSome :=
    isSome_property?_iff.mpr ⟨_, _, .refl, rfl, rfl⟩
  obtain ⟨hassignable, hproperties⟩ :=
    (properties_follow_superclasses itemMapping "Document").1 "Item" inherits_itemMapping
  exact ⟨inherits_itemMapping, hassignable, hid, (hproperties "id" hid).1⟩

/-- A document is of a type that has owners, and yet it has none: asking for it fails, although
a path to the owner is one that the type has. -/
theorem implemented_property_is_unknown :
    itemMapping.maps "Document" ∧ itemMapping.maps "Owned" ∧
      itemMapping.isAssignable "Document" "Owned" ∧
      itemMapping.propertyType? "Owned" "owner" = some .basic ∧
      itemMapping.property? "Document" "owner" = none ∧
      Navigation.read itemMapping ⟨[Object.create "Document" none []]⟩ 0 "owner" =
        .error (.mapping (.unknownProperty "owner" "Document")) := by
  have howned : itemMapping.lineage "Owned" = [itemMapping.classes[1]] :=
    lineageWithin_of_some rfl
  have hdocument : itemMapping.lineage "Document" =
      [itemMapping.classes[2], itemMapping.classes[0]] := by
    rw [lineage, lineageWithin_of_some rfl]
    exact congrArg (itemMapping.classes[2] :: ·) (lineageWithin_of_some rfl)
  have hunknown : itemMapping.property? "Document" "owner" = none := by
    rw [property?, hdocument]
    decide
  refine ⟨rfl, rfl, isAssignable_iff.mpr (.single ⟨_, rfl, by decide⟩), ?_, hunknown, ?_⟩
  · rw [propertyType?, property?, howned]
    decide
  · have htype : World.typeOf ⟨[Object.create "Document" none []]⟩ 0 = "Document" := rfl
    have hmaps : itemMapping.maps "Document" := rfl
    simp only [Navigation.read, htype, hmaps, hunknown]
    rfl

end RowGuard.Mapping
