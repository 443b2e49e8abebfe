import Mathlib.Data.List.Sort
import RowGuard.Proofs.Grants

/-!
# Rules that cover a type

A query over a type gives objects of every class that the type stands for, so a rule can
restrict it only if its text is about all of these classes.  A text has one rule for each
class that it is about, and these rules share its position; so looking for the position
among the rules of every class finds the texts in question, each once and in their order.
-/

namespace RowGuard

open Query (AccessKind)

/-! ## Covering -/

/-- The text names the way of using, or none at all, and it is about every class that the
objects of a type can have. -/
structure RuleText.Covers (q : RuleText) (m : Mapping) (type : String) (kind : AccessKind) :
    Prop where
  named : q.named = [] ∨ kind ∈ q.named
  subtypes : ∀ k ∈ m.classes, k.isAbstract = false → m.IsSubtype k.name type →
    m.IsSubtype k.name q.type

instance (q : RuleText) (m : Mapping) (type : String) (kind : AccessKind) :
    Decidable (q.Covers m type kind) :=
  decidable_of_iff ((q.named = [] ∨ kind ∈ q.named) ∧ ∀ k ∈ m.classes, k.isAbstract = false →
      m.isAssignable k.name type → m.isAssignable k.name q.type)
    ⟨fun ⟨hnamed, hsub⟩ => ⟨hnamed, fun k hk hconcrete htype =>
        Mapping.isAssignable_iff.mp (hsub k hk hconcrete (Mapping.isAssignable_iff.mpr htype))⟩,
      fun ⟨hnamed, hsub⟩ => ⟨hnamed, fun k hk hconcrete htype =>
        Mapping.isAssignable_iff.mpr (hsub k hk hconcrete (Mapping.isAssignable_iff.mp htype))⟩⟩

section Covering

variable {m : Mapping} {type : String} {kind : AccessKind} {q : RuleText}

theorem Mapping.mem_concreteClasses {k : EntityClass} : k ∈ m.concreteClasses type ↔
    k ∈ m.classes ∧ k.isAbstract = false ∧ m.IsSubtype k.name type := by
  simp only [concreteClasses, List.mem_filter, Bool.and_eq_true, Bool.not_eq_true',
    isAssignable_iff]

/-- A text covers a type that has objects if it applies to each of their classes. -/
theorem RuleText.covers_iff_applies (hne : m.concreteClasses type ≠ []) :
    q.Covers m type kind ↔
      ∀ name ∈ (m.concreteClasses type).map EntityClass.name, q.Applies m name kind := by
  constructor
  · intro h name hname
    obtain ⟨k, hk, rfl⟩ := List.mem_map.mp hname
    obtain ⟨hmem, hconcrete, htype⟩ := Mapping.mem_concreteClasses.mp hk
    exact ⟨h.named, ⟨k, hmem, rfl, hconcrete⟩, h.subtypes k hmem hconcrete htype⟩
  · intro h
    constructor
    · obtain ⟨k, hk⟩ := List.exists_mem_of_ne_nil _ hne
      exact (h k.name (List.mem_map_of_mem hk)).named
    · intro k hmem hconcrete htype
      have hk : k ∈ m.concreteClasses type := Mapping.mem_concreteClasses.mpr
        ⟨hmem, hconcrete, htype⟩
      exact (h k.name (List.mem_map_of_mem hk)).subtype

end Covering

theorem Mapping.reaches_nil (sup : String) (left : List EntityClass) :
    reaches sup left [] = false := by
  rw [reaches]

/-- One step of the search for supertypes. -/
theorem Mapping.reaches_cons (sup : String) (left : List EntityClass) (name : String)
    (rest : List String) : reaches sup left (name :: rest) = match lookUp left name with
      | none => reaches sup left rest
      | some c => c.parents.contains sup || reaches sup (without left name) (c.parents ++ rest) := by
  rw [reaches]
  split <;> rename_i h <;> rw [h]

/-! ## Positions -/

/-- Every rule that comes from a text has its position and its source. -/
theorem AccessRule.origin_of_ofText {m : Mapping} {position : Nat} {source : String}
    {rules : List AccessRule} (h : ofText m position source = .ok rules) {r : AccessRule}
    (hr : r ∈ rules) : r.position = position ∧ r.source = source := by
  obtain ⟨_, _, _, _, _, _, _, -, -, hrules, -⟩ := expands_of_ofText h
  obtain ⟨c, -, found, -, -, -, rfl⟩ := hrules r hr
  exact ⟨rfl, rfl⟩

namespace Policy

/-- The rules that some texts stand for, the first of which has a given position. -/
structure Expand (m : Mapping) (position : Nat) (texts : List String) (said : List RuleText)
    (rules : List AccessRule) : Prop where
  read : texts.map RuleText.ofText? = said.map some
  ordered : rules.Pairwise fun r r' => r.position ≤ r'.position
  origin : ∀ r ∈ rules, ∃ i q, r.position = position + i ∧ texts[i]? = some r.source ∧
    said[i]? = some q ∧ r.Speaks q
  granting : ∀ i q, said[i]? = some q → ∀ class_ kind,
    (∃ r ∈ rules, r.position = position + i ∧ r.entityName = class_ ∧ r.grants kind) ↔
      q.Applies m class_ kind

variable {m : Mapping} {position : Nat} {text source : String} {texts : List String}
  {first others rules : List AccessRule} {own q : RuleText} {said : List RuleText}

theorem Expand.le_position (h : Expand m position texts said rules) {r : AccessRule}
    (hr : r ∈ rules) : position ≤ r.position := by
  obtain ⟨i, -, hposition, -⟩ := h.origin r hr
  omega

theorem Expand.cons (hfirst : AccessRule.ofText m position text = .ok first)
    (h : Expand m (position + 1) texts said others) :
    ∃ own, Expand m position (text :: texts) (own :: said) (first ++ others) := by
  obtain ⟨own, hown, hspeaks, hclasses⟩ := AccessRule.speaks_of_ofText hfirst
  have horigin : ∀ r ∈ first, r.position = position ∧ r.source = text :=
    fun r hr => AccessRule.origin_of_ofText hfirst hr
  refine ⟨own, ?_, ?_, ?_, ?_⟩
  · rw [List.map_cons, List.map_cons, hown, h.read]
  · refine List.pairwise_append.mpr ⟨?_, h.ordered, ?_⟩
    · refine List.pairwise_of_forall_mem_list fun r hr r' hr' => ?_
      rw [(horigin r hr).1, (horigin r' hr').1]
    · intro r hr r' hr'
      have hlater := h.le_position hr'
      rw [(horigin r hr).1]
      omega
  · intro r hr
    rcases List.mem_append.mp hr with hr | hr
    · exact ⟨0, own, (horigin r hr).1, congrArg some (horigin r hr).2.symm, rfl, hspeaks r hr⟩
    · obtain ⟨i, q, hposition, hsource, hq, hrule⟩ := h.origin r hr
      exact ⟨i + 1, q, by omega, hsource, hq, hrule⟩
  · intro i q hq class_ kind
    cases i with
    | zero =>
        -- Only the rules of the first text have its position.
        obtain rfl : own = q := Option.some.inj hq
        rw [← AccessRule.exists_granting_iff hspeaks hclasses]
        constructor
        · rintro ⟨r, hr, hposition, hgrants⟩
          rcases List.mem_append.mp hr with hr | hr
          · exact ⟨r, hr, hgrants⟩
          · have hlater := h.le_position hr
            omega
        · rintro ⟨r, hr, hgrants⟩
          exact ⟨r, List.mem_append_left others hr, (horigin r hr).1, hgrants⟩
    | succ i =>
        rw [← h.granting i q hq class_ kind]
        constructor
        · rintro ⟨r, hr, hposition, hgrants⟩
          rcases List.mem_append.mp hr with hr | hr
          · have hown := (horigin r hr).1
            omega
          · exact ⟨r, hr, by omega, hgrants⟩
        · rintro ⟨r, hr, hposition, hgrants⟩
          exact ⟨r, List.mem_append_right first hr, by omega, hgrants⟩

theorem exists_expand (h : textsFrom m position texts = .ok rules) :
    ∃ said, Expand m position texts said rules := by
  induction texts generalizing position rules with
  | nil =>
      cases h
      exact ⟨[], rfl, .nil, nofun, nofun⟩
  | cons text texts ih =>
      obtain ⟨first, hfirst, h⟩ := Query.Scope.ok_of_bind h
      obtain ⟨others, hothers, h⟩ := Query.Scope.ok_of_bind h
      cases h
      obtain ⟨said, hsaid⟩ := ih hothers
      obtain ⟨own, hown⟩ := hsaid.cons hfirst
      exact ⟨own :: said, hown⟩

theorem exists_expand_ofTexts {policy : Policy} (h : ofTexts m texts = .ok policy) :
    ∃ said, Expand m 0 texts said policy.rules := by
  obtain ⟨rules, hrules, h⟩ := Query.Scope.ok_of_bind h
  cases h
  exact exists_expand hrules

/-! ## One rule for each text -/

/-- Texts that have been seen are not represented again. -/
theorem not_seen_of_mem_firstOfText {seen : List Nat} {r : AccessRule}
    (h : r ∈ firstOfText seen rules) : r.position ∉ seen := by
  induction rules generalizing seen with
  | nil => cases h
  | cons first rest ih =>
      unfold firstOfText at h
      split at h
      · exact ih h
      · rename_i hseen
        rcases List.mem_cons.mp h with rfl | h
        · simpa using hseen
        · exact fun hmem => ih h (List.mem_cons_of_mem _ hmem)

/-- Of rules in order, those that represent the texts are in strict order. -/
theorem pairwise_firstOfText {seen : List Nat}
    (h : rules.Pairwise fun r r' => r.position ≤ r'.position) :
    (firstOfText seen rules).Pairwise fun r r' => r.position < r'.position := by
  induction h generalizing seen with
  | nil => exact .nil
  | @cons first rest hfirst _ ih =>
      unfold firstOfText
      split
      · exact ih
      · refine List.pairwise_cons.mpr ⟨fun r hr => ?_, ih⟩
        apply lt_of_le_of_ne (hfirst r (mem_of_mem_firstOfText hr))
        intro heq
        apply not_seen_of_mem_firstOfText hr
        rw [← heq]
        exact List.mem_cons_self

variable {policy : Policy} {type : String} {kind : AccessKind}

theorem covers_eq_true_iff {r : AccessRule} {entity : String} : policy.covers kind r entity ↔
    ∃ r' ∈ policy.rules, r'.position = r.position ∧ r'.entityName = entity ∧ r'.grants kind := by
  simp only [covers, rulesFor, List.any_eq_true, List.mem_filter, Bool.and_eq_true, beq_iff_eq]
  constructor
  · rintro ⟨r', ⟨hr', hname, hgrants⟩, hposition⟩
    exact ⟨r', hr', hposition, hname, hgrants⟩
  · rintro ⟨r', hr', hposition, hname, hgrants⟩
    exact ⟨r', ⟨hr', hname, hgrants⟩, hposition⟩

/-- The rules for a type with objects are in the order of their texts, one for each. -/
theorem pairwise_rulesForType (h : policy.rules.Pairwise fun r r' => r.position ≤ r'.position)
    (hne : m.concreteClasses type ≠ []) :
    (policy.rulesForType m type kind).Pairwise fun r r' => r.position < r'.position := by
  unfold rulesForType
  split
  · rename_i hnone
    exact absurd (List.map_eq_nil_iff.mp hnone) hne
  · exact pairwise_firstOfText ((h.filter _).filter _)

/-- A position is that of a rule for a type with objects exactly if every class of the
objects has a rule from there. -/
theorem exists_position_rulesForType_iff (hne : m.concreteClasses type ≠ []) {position : Nat} :
    (∃ r ∈ policy.rulesForType m type kind, r.position = position) ↔
      ∀ name ∈ (m.concreteClasses type).map EntityClass.name, ∃ r ∈ policy.rules,
        r.position = position ∧ r.entityName = name ∧ r.grants kind := by
  constructor
  · rintro ⟨r, hr, rfl⟩ name hname
    obtain ⟨k, hk, rfl⟩ := List.mem_map.mp hname
    obtain ⟨r', hr', hposition⟩ := (covers_of_mem_rulesForType hr).2 k hk
    obtain ⟨hmem, hgrants⟩ := List.mem_filter.mp hr'
    rw [Bool.and_eq_true, beq_iff_eq] at hgrants
    exact ⟨r', hmem, hposition, hgrants⟩
  · intro h
    unfold rulesForType
    split
    · rename_i hnone
      exact absurd (List.map_eq_nil_iff.mp hnone) hne
    · rename_i first others hnames
      rw [hnames] at h
      obtain ⟨hfirst, hothers⟩ := List.forall_mem_cons.mp h
      obtain ⟨r, hr, rfl, hname, hgrants⟩ := hfirst
      have hcovers : others.all (policy.covers kind r) :=
        List.all_eq_true.mpr fun name hname => covers_eq_true_iff.mpr (hothers name hname)
      have hr : r ∈ (policy.rulesFor first kind).filter fun r =>
          others.all (policy.covers kind r) := by
        simp only [rulesFor, List.mem_filter, Bool.and_eq_true, beq_iff_eq]
        exact ⟨⟨hr, hname, hgrants⟩, hcovers⟩
      exact (exists_mem_firstOfText hr).resolve_left (by simp)

/-- A text covers a type with objects exactly if its position is that of a rule for the type. -/
theorem Expand.covers_iff (h : Expand m 0 texts said policy.rules)
    (hne : m.concreteClasses type ≠ []) {position : Nat} :
    position ∈ (List.range texts.length).filter (fun i => said[i]?.any (·.Covers m type kind)) ↔
      ∃ r ∈ policy.rulesForType m type kind, r.position = position := by
  have hlength : texts.length = said.length := by
    simpa using congrArg List.length h.read
  rw [exists_position_rulesForType_iff hne, List.mem_filter, List.mem_range, hlength,
    Option.any_eq_true]
  constructor
  · rintro ⟨-, q, hq, hcovers⟩ name hname
    have happlies := (RuleText.covers_iff_applies hne).mp (of_decide_eq_true hcovers) name hname
    simpa using (h.granting position q hq name kind).mpr happlies
  · intro hall
    -- The type has a class, and the rule of this class tells the text.
    obtain ⟨k, hk⟩ := List.exists_mem_of_ne_nil _ hne
    obtain ⟨r, hr, hposition, -⟩ := hall k.name (List.mem_map_of_mem hk)
    obtain ⟨i, q, hi, -, hq, -⟩ := h.origin r hr
    obtain rfl : i = position := by omega
    refine ⟨(List.getElem?_eq_some_iff.mp hq).1, q, hq, decide_eq_true ?_⟩
    apply (RuleText.covers_iff_applies hne).mpr
    intro name hname
    apply (h.granting i q hq name kind).mp
    simpa using hall name hname

/-- The rules that restrict queries over a type with objects stand for the texts that grant
the way of using for every class of the objects, in the order of the texts and each once.
Whichever of these classes an object has, a rule with the same subject and the same condition
decides about it. -/
theorem rules_cover_type (h : ofTexts m texts = .ok policy)
    (hclass : ∃ k ∈ m.classes, k.isAbstract = false ∧ m.IsSubtype k.name type)
    (kind : AccessKind) :
    ∃ said : List RuleText, texts.map RuleText.ofText? = said.map some ∧
      (policy.rulesForType m type kind).map AccessRule.position =
        (List.range texts.length).filter (fun i => said[i]?.any (·.Covers m type kind)) ∧
      ∀ r ∈ policy.rulesForType m type kind, texts[r.position]? = some r.source ∧
        ∀ k ∈ m.classes, k.isAbstract = false → m.IsSubtype k.name type →
          ∃ r' ∈ policy.rulesFor k.name kind, r'.position = r.position ∧
            r'.subject = r.subject ∧ r'.condition? = r.condition? := by
  obtain ⟨k, hk⟩ := hclass
  have hne : m.concreteClasses type ≠ [] := List.ne_nil_of_mem (Mapping.mem_concreteClasses.mpr hk)
  obtain ⟨said, hsaid⟩ := exists_expand_ofTexts h
  refine ⟨said, hsaid.read, ?_, fun r hr => ?_⟩
  · apply List.Pairwise.eq_of_mem_iff (r := (· < ·))
    · exact List.pairwise_map.mpr (pairwise_rulesForType hsaid.ordered hne)
    · exact List.pairwise_lt_range.filter _
    · intro position
      rw [List.mem_map, hsaid.covers_iff hne]
  · obtain ⟨hmem, hcovers⟩ := covers_of_mem_rulesForType hr
    obtain ⟨i, q, hposition, hsource, hq, hspeaks⟩ := hsaid.origin r hmem
    obtain rfl : i = r.position := by omega
    refine ⟨hsource, fun k hk hconcrete htype => ?_⟩
    obtain ⟨r', hr', hsame⟩ := hcovers k (Mapping.mem_concreteClasses.mpr ⟨hk, hconcrete, htype⟩)
    obtain ⟨j, q', hj, -, hq', hspeaks'⟩ := hsaid.origin r' (mem_rules_of_rulesFor hr')
    -- Both rules say what the text at their position says.
    obtain rfl : q = q' := by
      rw [hsame, Nat.zero_add] at hj
      exact Option.some.inj (hq.symm.trans (hj ▸ hq'))
    exact ⟨r', hr', hsame, hspeaks'.subject.trans hspeaks.subject.symm,
      hspeaks'.condition.trans hspeaks.condition.symm⟩

/-! ## Owned documents and folders -/

/-- Documents and folders have owners, and secret documents are documents. -/
def ownedMapping : Mapping where
  classes := [
    { name := "Document", interfaces := ["Owned"], properties := [⟨"owner", .basic⟩] },
    { name := "SecretDocument", superclass? := some "Document" },
    { name := "Folder", interfaces := ["Owned"], properties := [⟨"owner", .basic⟩] }]

/-- The types of the objects of a class. -/
def ownedTypes : String → List String
  | "Document" => ["Document", "Owned"]
  | "SecretDocument" => ["SecretDocument", "Document", "Owned"]
  | "Folder" => ["Folder", "Owned"]
  | _ => []

/-- The search for supertypes does not evaluate by itself, so it is gone through by hand. -/
theorem concreteClasses_ownedMapping : ownedMapping.concreteClasses =
    fun type => ownedMapping.classes.filter fun k => (ownedTypes k.name).contains type := by
  funext type
  apply List.filter_congr
  intro k hk
  simp only [ownedMapping, List.mem_cons, List.not_mem_nil, or_false] at hk
  rcases hk with rfl | rfl | rfl <;>
    rw [Mapping.isAssignable, BEq.comm, Bool.eq_iff_iff] <;>
    simp [Mapping.reaches_cons, Mapping.reaches_nil, Mapping.lookUp, Mapping.without, ownedMapping,
      EntityClass.parents, ownedTypes]

def ownedTexts : List String :=
  ["GRANT READ ACCESS TO SecretDocument s",
    "GRANT READ ACCESS TO Owned o WHERE o.owner = CURRENT_PRINCIPAL",
    "GRANT DELETE ACCESS TO Document d",
    "GRANT ACCESS TO Document d WHERE d.owner = 'all'"]

/-- A query over documents gives secret ones too, so a grant for these alone is of no use. -/
theorem rules_cover_type_documents : ∃ (policy : Policy) (said : List RuleText),
    ofTexts ownedMapping ownedTexts = .ok policy ∧
    (∃ k ∈ ownedMapping.classes, k.isAbstract = false ∧
      ownedMapping.IsSubtype k.name "Document") ∧
    (policy.rulesForType ownedMapping "Document" .read).map AccessRule.position = [1, 3] ∧
    ownedTexts.map RuleText.ofText? = said.map some ∧
    (List.range ownedTexts.length).filter
      (fun i => said[i]?.any (·.Covers ownedMapping "Document" .read)) = [1, 3] := by
  have hfound : (ofTexts ownedMapping ownedTexts).toOption.any fun policy =>
      (policy.rulesForType ownedMapping "Document" .read).map AccessRule.position = [1, 3] := by
    simp only [ofTexts, textsFrom, AccessRule.ofText, ownedTexts, rulesForType,
      concreteClasses_ownedMapping]
    decide +kernel
  obtain ⟨policy, hpolicy, hfound⟩ := Query.Scope.ok_of_any hfound
  have hpositions := of_decide_eq_true hfound
  have hclass : ∃ k ∈ ownedMapping.classes, k.isAbstract = false ∧
      ownedMapping.IsSubtype k.name "Document" := ⟨_, List.mem_cons_self, rfl, .refl⟩
  obtain ⟨said, hread, hcovering, -⟩ := rules_cover_type hpolicy hclass .read
  exact ⟨policy, said, hpolicy, hclass, hpositions, hread, hcovering.symm.trans hpositions⟩

end Policy

end RowGuard
