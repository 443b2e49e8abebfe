import RowGuard.Guard.Basic
import RowGuard.Proofs.Policies
import RowGuard.Proofs.Subtypes

/-!
# What the texts of the rules grant

A decision about an object is what the texts of the rules say, taken in their order.
Which rules a text is expanded into, and how these are indexed, does not show: the
rules of one text are all alike, and the class of an object has one of them exactly
if the text applies to it.
-/

namespace RowGuard

open Query (AccessKind Phrase)
open Restriction (askRules truthFor)

/-- What a rule says of an object; one without condition is true of every object. -/
def Restriction.ruleTruth (ev : Evaluator) (c : SecurityContext) (now : Timestamp)
    (object : ObjectId) (subject : String) (condition? : Option Phrase) :
    Except Fault (Option Bool) :=
  match condition? with
  | none => .ok (some true)
  | some condition => (truthFor ev c now object subject condition).outcome

/-! ## Texts -/

/-- A rule as its text puts it. -/
structure RuleText where
  /-- The ways of using that the text names. -/
  named : List AccessKind
  /-- The type of the objects that it is about. -/
  type : String
  subject : String
  condition? : Option Phrase

namespace RuleText

def ofPhrase? : Phrase → Option RuleText
  | .node (.accessRule named)
      (.node (.entityName type) _ _ :: .node (.identifier subject) _ _ :: rest) _ =>
      some ⟨named, type, subject, AccessRule.conditionIn rest⟩
  | _ => none

def ofText? (text : String) : Option RuleText := (Phrase.ruleOfText text).toOption.bind ofPhrase?

/-- The text names the way of using, or none at all, and it is about the objects of the
class, which is mapped and can have objects. -/
structure Applies (r : RuleText) (m : Mapping) (class_ : String) (kind : AccessKind) : Prop where
  named : r.named = [] ∨ kind ∈ r.named
  concrete : ∃ k ∈ m.classes, k.name = class_ ∧ k.isAbstract = false
  subtype : m.IsSubtype class_ r.type

instance (r : RuleText) (m : Mapping) (class_ : String) (kind : AccessKind) :
    Decidable (r.Applies m class_ kind) :=
  decidable_of_iff ((r.named = [] ∨ kind ∈ r.named) ∧
      (∃ k ∈ m.classes, k.name = class_ ∧ k.isAbstract = false) ∧ m.isAssignable class_ r.type)
    ⟨fun ⟨hnamed, hconcrete, hsub⟩ => ⟨hnamed, hconcrete, Mapping.isAssignable_iff.mp hsub⟩,
      fun ⟨hnamed, hconcrete, hsub⟩ => ⟨hnamed, hconcrete, Mapping.isAssignable_iff.mpr hsub⟩⟩

/-- What the rule says of an object. -/
def truth (r : RuleText) (ev : Evaluator) (c : SecurityContext) (now : Timestamp)
    (object : ObjectId) : Except Fault (Option Bool) :=
  Restriction.ruleTruth ev c now object r.subject r.condition?

end RuleText

/-! ## Expansions -/

namespace AccessRule

/-- The rule says what its text does. -/
structure Speaks (r : AccessRule) (said : RuleText) : Prop where
  kinds : r.kinds = kindsOf said.named
  subject : r.subject = said.subject
  condition : r.condition? = said.condition?

theorem contains_kindsOf {named : List AccessKind} {kind : AccessKind} :
    (kindsOf named).contains kind ↔ named = [] ∨ kind ∈ named := by
  unfold kindsOf
  rcases named with _ | ⟨first, rest⟩
  · cases kind <;> decide
  · have hall : kind ∈ AccessKind.all := by cases kind <;> decide
    simp [hall]

/-- All rules of a text say what it does, and there is one for each class that its type
stands for. -/
theorem speaks_of_ofText {m : Mapping} {position : Nat} {source : String}
    {rules : List AccessRule} (h : ofText m position source = .ok rules) :
    ∃ said, RuleText.ofText? source = some said ∧ (∀ r ∈ rules, r.Speaks said) ∧
      ∀ name, (∃ r ∈ rules, r.entityName = name) ↔
        ∃ k ∈ m.concreteClasses said.type, k.name = name := by
  obtain ⟨kinds, e, s₁, a, s₂, rest, s, hread, -, hrules, hclasses⟩ := expands_of_ofText h
  refine ⟨⟨kinds, e, a, conditionIn rest⟩, ?_, fun r hr => ?_, fun name => ⟨?_, ?_⟩⟩
  · rw [RuleText.ofText?, hread]
    rfl
  · obtain ⟨c, hc, found, hcondition, -, -, rfl⟩ := hrules r hr
    exact ⟨rfl, rfl, hcondition⟩
  · rintro ⟨r, hr, rfl⟩
    obtain ⟨c, hc, found, -, -, -, rfl⟩ := hrules r hr
    exact ⟨c, hc, rfl⟩
  · rintro ⟨c, hc, rfl⟩
    obtain ⟨r, hr, found, -, -, -, rfl⟩ := hclasses c hc
    exact ⟨_, hr, rfl⟩

/-- The class of an object has a rule of a text exactly if the text applies to it. -/
theorem exists_granting_iff {m : Mapping} {rules : List AccessRule} {said : RuleText}
    {class_ : String} {kind : AccessKind} (hspeaks : ∀ r ∈ rules, r.Speaks said)
    (hclasses : ∀ name, (∃ r ∈ rules, r.entityName = name) ↔
      ∃ k ∈ m.concreteClasses said.type, k.name = name) :
    (∃ r ∈ rules, r.entityName = class_ ∧ r.grants kind) ↔ said.Applies m class_ kind := by
  have hconcrete : (∃ k ∈ m.concreteClasses said.type, k.name = class_) ↔
      (∃ k ∈ m.classes, k.name = class_ ∧ k.isAbstract = false) ∧
        m.IsSubtype class_ said.type := by
    simp only [Mapping.concreteClasses, List.mem_filter, Bool.and_eq_true, Bool.not_eq_true',
      Mapping.isAssignable_iff]
    constructor
    · rintro ⟨k, ⟨hk, hconcrete, hsub⟩, rfl⟩
      exact ⟨⟨k, hk, rfl, hconcrete⟩, hsub⟩
    · rintro ⟨⟨k, hk, rfl, hconcrete⟩, hsub⟩
      exact ⟨k, ⟨hk, hconcrete, hsub⟩, rfl⟩
  constructor
  · rintro ⟨r, hr, hname, hgrants⟩
    rw [grants, (hspeaks r hr).kinds, contains_kindsOf] at hgrants
    obtain ⟨hexists, hsub⟩ := hconcrete.mp ((hclasses class_).mp ⟨r, hr, hname⟩)
    exact ⟨hgrants, hexists, hsub⟩
  · intro h
    obtain ⟨r, hr, hname⟩ := (hclasses class_).mpr (hconcrete.mpr ⟨h.concrete, h.subtype⟩)
    refine ⟨r, hr, hname, ?_⟩
    rw [grants, (hspeaks r hr).kinds, contains_kindsOf]
    exact h.named

end AccessRule

/-! ## Decisions -/

namespace Restriction

/-- What some truths come to, one after the other: the first that holds grants, the first
that fails ends it, and all others grant nothing. -/
def firstGrant : List (Except Fault (Option Bool)) → Except Fault Bool
  | [] => .ok false
  | .error f :: _ => .error f
  | .ok (some true) :: _ => .ok true
  | .ok _ :: rest => firstGrant rest

/-- A truth that neither holds nor fails. -/
def Declines (truth : Except Fault (Option Bool)) : Prop :=
  truth = .ok (some false) ∨ truth = .ok none

variable {truths before after : List (Except Fault (Option Bool))}
  {truth : Except Fault (Option Bool)}

theorem cases_truth (truth : Except Fault (Option Bool)) :
    Declines truth ∨ truth = .ok (some true) ∨ ∃ f, truth = .error f := by
  rcases truth with f | _ | _ | _
  · exact Or.inr (Or.inr ⟨f, rfl⟩)
  · exact Or.inl (Or.inr rfl)
  · exact Or.inl (Or.inl rfl)
  · exact Or.inr (Or.inl rfl)

theorem firstGrant_cons_of_declines (h : Declines truth)
    (rest : List (Except Fault (Option Bool))) :
    firstGrant (truth :: rest) = firstGrant rest := by
  rcases h with rfl | rfl <;> rfl

theorem firstGrant_cons_congr (truth : Except Fault (Option Bool))
    (h : firstGrant before = firstGrant after) :
    firstGrant (truth :: before) = firstGrant (truth :: after) := by
  rcases truth with f | _ | _ | _
  · rfl
  · exact h
  · exact h
  · rfl

theorem firstGrant_append_of_declines (h : ∀ truth ∈ before, Declines truth) :
    firstGrant (before ++ after) = firstGrant after := by
  induction before with
  | nil => rfl
  | cons first rest ih =>
      rw [List.cons_append, firstGrant_cons_of_declines (h first (by simp))]
      exact ih fun truth ht => h truth (List.mem_cons_of_mem first ht)

/-- Truths that are all alike come to what one of them does. -/
theorem firstGrant_append_of_alike (hne : before ≠ []) (h : ∀ t ∈ before, t = truth) :
    firstGrant (before ++ after) = firstGrant (truth :: after) := by
  rcases cases_truth truth with hdeclines | hdecided
  · rw [firstGrant_append_of_declines fun t ht => h t ht ▸ hdeclines,
      firstGrant_cons_of_declines hdeclines]
  · obtain ⟨first, rest, rfl⟩ := List.exists_cons_of_ne_nil hne
    obtain rfl : first = truth := h first (by simp)
    rcases hdecided with rfl | ⟨f, rfl⟩ <;> rfl

theorem firstGrant_of_not_failing (h : ∀ truth ∈ before, ∀ f, truth ≠ .error f) :
    firstGrant (before ++ .ok (some true) :: after) = .ok true := by
  induction before with
  | nil => rfl
  | cons first rest ih =>
      have hrest := ih fun truth ht => h truth (List.mem_cons_of_mem first ht)
      rcases cases_truth first with hdeclines | rfl | ⟨f, rfl⟩
      · rwa [List.cons_append, firstGrant_cons_of_declines hdeclines]
      · rfl
      · exact absurd rfl (h _ (by simp) f)

section

variable {α : Type} {truthOf : α → Except Fault (Option Bool)} {as : List α}

/-- Either all truths decline, or there is a first one that does not. -/
theorem declines_or_exists_first (truthOf : α → Except Fault (Option Bool)) (as : List α) :
    (∀ a ∈ as, Declines (truthOf a)) ∨ ∃ earlier a later, as = earlier ++ a :: later ∧
      (∀ b ∈ earlier, Declines (truthOf b)) ∧
      (truthOf a = .ok (some true) ∨ ∃ f, truthOf a = .error f) := by
  induction as with
  | nil => exact Or.inl (by simp)
  | cons first rest ih =>
      rcases cases_truth (truthOf first) with hfirst | hfirst
      · rcases ih with hall | ⟨earlier, a, later, rfl, hearlier, hdecided⟩
        · exact Or.inl (List.forall_mem_cons.mpr ⟨hfirst, hall⟩)
        · exact Or.inr ⟨first :: earlier, a, later, rfl,
            List.forall_mem_cons.mpr ⟨hfirst, hearlier⟩, hdecided⟩
      · exact Or.inr ⟨[], first, rest, rfl, by simp, hfirst⟩

theorem firstGrant_of_declines (h : ∀ a ∈ as, Declines (truthOf a)) :
    firstGrant (as.map truthOf) = .ok false := by
  have hall : firstGrant (as.map truthOf ++ []) = firstGrant [] :=
    firstGrant_append_of_declines (List.forall_mem_map.mpr h)
  rwa [List.append_nil] at hall

theorem firstGrant_of_first {earlier later : List α} {a : α}
    (h : ∀ b ∈ earlier, Declines (truthOf b)) : firstGrant ((earlier ++ a :: later).map truthOf) =
      firstGrant (truthOf a :: later.map truthOf) := by
  rw [List.map_append, firstGrant_append_of_declines (List.forall_mem_map.mpr h), List.map_cons]

theorem firstGrant_eq_true_iff : firstGrant (as.map truthOf) = .ok true ↔
    ∃ earlier a later, as = earlier ++ a :: later ∧ truthOf a = .ok (some true) ∧
      ∀ b ∈ earlier, ∀ f, truthOf b ≠ .error f := by
  constructor
  · intro h
    rcases declines_or_exists_first truthOf as with
      hall | ⟨earlier, a, later, rfl, hearlier, hdecided⟩
    · rw [firstGrant_of_declines hall] at h
      cases h
    · rcases hdecided with htrue | ⟨f, hfails⟩
      · exact ⟨earlier, a, later, rfl, htrue, fun b hb f hf => by
          rcases hearlier b hb with heq | heq <;> rw [heq] at hf <;> cases hf⟩
      · rw [firstGrant_of_first hearlier, hfails] at h
        cases h
  · rintro ⟨earlier, a, later, rfl, htrue, hearlier⟩
    rw [List.map_append, List.map_cons, htrue]
    exact firstGrant_of_not_failing (List.forall_mem_map.mpr hearlier)

theorem firstGrant_eq_false_iff : firstGrant (as.map truthOf) = .ok false ↔
    ∀ a ∈ as, Declines (truthOf a) := by
  constructor
  · intro h
    rcases declines_or_exists_first truthOf as with
      hall | ⟨earlier, a, later, rfl, hearlier, hdecided⟩
    · exact hall
    · rw [firstGrant_of_first hearlier] at h
      rcases hdecided with hfirst | ⟨f, hfirst⟩ <;> rw [hfirst] at h <;> cases h
  · exact firstGrant_of_declines

theorem firstGrant_eq_error_iff {f : Fault} : firstGrant (as.map truthOf) = .error f ↔
    ∃ earlier a later, as = earlier ++ a :: later ∧ truthOf a = .error f ∧
      ∀ b ∈ earlier, Declines (truthOf b) := by
  constructor
  · intro h
    rcases declines_or_exists_first truthOf as with
      hall | ⟨earlier, a, later, rfl, hearlier, hdecided⟩
    · rw [firstGrant_of_declines hall] at h
      cases h
    · rw [firstGrant_of_first hearlier] at h
      rcases hdecided with hfirst | ⟨f', hfirst⟩ <;> rw [hfirst] at h <;> cases h
      exact ⟨earlier, a, later, rfl, hfirst, hearlier⟩
  · rintro ⟨earlier, a, later, rfl, hfails, hearlier⟩
    rw [firstGrant_of_first hearlier, hfails]
    rfl

end

variable {ev : Evaluator} {c : SecurityContext} {now : Timestamp} {object : ObjectId}

theorem outcome_askRules (rules : List AccessRule) :
    (askRules ev c now object rules).outcome =
      firstGrant (rules.map fun r => ruleTruth ev c now object r.subject r.condition?) := by
  induction rules with
  | nil => rfl
  | cons r rest ih =>
      rw [askRules, List.map_cons]
      cases r.condition? with
      | none => rfl
      | some condition =>
          simp only [ruleTruth, truthFor]
          split
          · rename_i htruth
            rw [htruth]
            rfl
          · rename_i htruth
            rw [htruth]
            rfl
          · rename_i b hb htruth
            rw [htruth]
            rcases b with _ | _ | _
            · exact ih
            · exact ih
            · exact absurd rfl hb

end Restriction

open Restriction

/-- The rules of one text come to what the text says, if it applies. -/
theorem firstGrant_of_speaks {m : Mapping} {rules : List AccessRule} {said : RuleText}
    {class_ : String} {kind : AccessKind} (hspeaks : ∀ r ∈ rules, r.Speaks said)
    (hclasses : ∀ name, (∃ r ∈ rules, r.entityName = name) ↔
      ∃ k ∈ m.concreteClasses said.type, k.name = name)
    (ev : Evaluator) (c : SecurityContext) (now : Timestamp) (object : ObjectId)
    (after : List (Except Fault (Option Bool))) :
    firstGrant (((rules.filter fun r => r.entityName == class_ && r.grants kind).map fun r =>
        ruleTruth ev c now object r.subject r.condition?) ++ after) =
      firstGrant (if said.Applies m class_ kind then said.truth ev c now object :: after
        else after) := by
  have hexists : rules.filter (fun r => r.entityName == class_ && r.grants kind) ≠ [] ↔
      said.Applies m class_ kind := by
    rw [← AccessRule.exists_granting_iff hspeaks hclasses, Ne, List.filter_eq_nil_iff]
    simp
  split
  · rename_i happlies
    apply firstGrant_append_of_alike
    · simpa using hexists.mpr happlies
    · intro t ht
      obtain ⟨r, hr, rfl⟩ := List.mem_map.mp ht
      have hrule := hspeaks r (List.mem_of_mem_filter hr)
      rw [RuleText.truth, hrule.subject, hrule.condition]
  · rename_i happlies
    rw [not_imp_comm.mp hexists.mp happlies]
    rfl

/-- The rules of some texts come to what the texts say that apply. -/
theorem firstGrant_of_textsFrom {m : Mapping} {position : Nat} {texts : List String}
    {rules : List AccessRule} (h : Policy.textsFrom m position texts = .ok rules) :
    ∃ said : List RuleText, texts.map RuleText.ofText? = said.map some ∧
      ∀ class_ kind ev c now object,
        firstGrant ((rules.filter fun r => r.entityName == class_ && r.grants kind).map fun r =>
            ruleTruth ev c now object r.subject r.condition?) =
          firstGrant ((said.filter fun q => q.Applies m class_ kind).map fun q =>
            q.truth ev c now object) := by
  induction texts generalizing position rules with
  | nil =>
      cases h
      exact ⟨[], rfl, fun _ _ _ _ _ _ => rfl⟩
  | cons text texts ih =>
      obtain ⟨first, hfirst, h⟩ := Query.Scope.ok_of_bind h
      obtain ⟨others, hothers, h⟩ := Query.Scope.ok_of_bind h
      cases h
      obtain ⟨said, hread, hothers⟩ := ih hothers
      obtain ⟨own, hown, hspeaks, hclasses⟩ := AccessRule.speaks_of_ofText hfirst
      refine ⟨own :: said, by simp [hown, hread], fun class_ kind ev c now object => ?_⟩
      rw [List.filter_append, List.map_append, firstGrant_of_speaks hspeaks hclasses,
        List.filter_cons]
      by_cases happlies : own.Applies m class_ kind
      · simp only [happlies, if_true, decide_true, List.map_cons]
        exact firstGrant_cons_congr _ (hothers class_ kind ev c now object)
      · simp only [happlies, if_false, decide_false, Bool.false_eq_true]
        exact hothers class_ kind ev c now object

/-- The decision about an object is what the texts of the rules say that apply to it: it is
granted by the first that is true of the object, if none before it fails; it is denied if
all are false or undecided; and otherwise the first that fails tells why. -/
theorem Guard.decision_by_texts {g : Guard} {texts : List String}
    (h : Policy.ofTexts g.mapping texts = .ok g.policy) (w : World) (kind : AccessKind)
    (object : ObjectId) (c : SecurityContext) :
    ∃ said : List RuleText, texts.map RuleText.ofText? = said.map some ∧
      let applicable := said.filter fun r => r.Applies g.mapping (w.typeOf object) kind
      let truth := fun r : RuleText => r.truth (g.evaluator w) c g.now object
      let decision := (g.decision w kind object c).outcome
      (decision = .ok true ↔ ∃ earlier r later, applicable = earlier ++ r :: later ∧
        truth r = .ok (some true) ∧ ∀ q ∈ earlier, ∀ f, truth q ≠ .error f) ∧
      (decision = .ok false ↔
        ∀ r ∈ applicable, truth r = .ok (some false) ∨ truth r = .ok none) ∧
      ∀ f, decision = .error f ↔ ∃ earlier r later, applicable = earlier ++ r :: later ∧
        truth r = .error f ∧
        ∀ q ∈ earlier, truth q = .ok (some false) ∨ truth q = .ok none := by
  obtain ⟨rules, hrules, hpolicy⟩ := Query.Scope.ok_of_bind h
  obtain ⟨said, hread, hgrants⟩ := firstGrant_of_textsFrom hrules
  refine ⟨said, hread, ?_⟩
  intro applicable truth decision
  have hdecision : decision = firstGrant (applicable.map truth) := by
    rw [← hgrants, ← outcome_askRules]
    have hpolicy : { rules } = g.policy := Except.ok.inj hpolicy
    simp only [decision, Guard.decision]
    rw [← hpolicy, Policy.rulesFor]
  rw [hdecision]
  exact ⟨firstGrant_eq_true_iff, firstGrant_eq_false_iff, fun f => firstGrant_eq_error_iff⟩

/-- A guard over documents that may be read under their titles. -/
def titleGuard (policy : Policy) : Guard where
  mapping := { classes := [{ name := "Document", properties := [⟨"title", .basic⟩] }] }
  policy
  strategies := [.simple]
  provider := .current
  remembersReads := true
  now := default
  store? := none

def titleWorld : World := ⟨[⟨"Document", none, [("title", .string "minutes")]⟩]⟩

def titleTexts : List String :=
  ["GRANT UPDATE ACCESS TO Document d",
    "GRANT READ ACCESS TO Document d WHERE d.title = 'agenda'",
    "GRANT ACCESS TO Document d WHERE d.title = 'minutes'"]

/-- The minutes may be read, since one of the texts that are about reading says so. -/
theorem Guard.decision_by_texts_minutes :
    ∃ (policy : Policy) (said : List RuleText) (r : RuleText),
    Policy.ofTexts (titleGuard policy).mapping titleTexts = .ok policy ∧
    titleTexts.map RuleText.ofText? = said.map some ∧
    r ∈ said ∧ r.Applies (titleGuard policy).mapping "Document" .read ∧
    r.truth ((titleGuard policy).evaluator titleWorld) .anonymous default 0 =
      .ok (some true) := by
  have hfound : (Policy.ofTexts (titleGuard {}).mapping titleTexts).toOption.any fun policy =>
      ((titleGuard policy).decision titleWorld .read 0 .anonymous).outcome.toOption.any id := by
    decide +kernel
  obtain ⟨policy, hpolicy, hfound⟩ := Query.Scope.ok_of_any hfound
  obtain ⟨granted, hgranted, hgrants⟩ := Query.Scope.ok_of_any hfound
  obtain rfl : granted = true := hgrants
  obtain ⟨said, hread, htrue, -⟩ :=
    Guard.decision_by_texts (g := titleGuard policy) hpolicy titleWorld .read 0 .anonymous
  obtain ⟨earlier, r, later, happlicable, htruth, -⟩ := htrue.mp hgranted
  have hr := List.mem_filter.mp (happlicable ▸ List.mem_append_right earlier List.mem_cons_self)
  exact ⟨policy, said, r, hpolicy, hread, hr.1, of_decide_eq_true hr.2, htruth⟩

end RowGuard
