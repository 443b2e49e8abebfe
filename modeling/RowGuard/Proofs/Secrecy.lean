import RowGuard.Proofs.Agreement
import RowGuard.Proofs.Compilation
import RowGuard.Proofs.Conditions
import RowGuard.Proofs.Instantiations

/-!
# Secrecy of the context

What the security context holds never reaches the text of a query.  A query that is
restricted for two contexts, with the same attributes and as many roles in both, goes
through parameters of the same names: a name depends on the names that are taken, and
these grow in the same way.  So as long as the rules that apply say the same of both
contexts before any object is known, the texts are the same, and the parameters differ in
their values at most.
-/

namespace RowGuard

open Query (AccessKind Label Phrase Statement)
open Query.Phrase

/-- Contexts that have the same attributes and as many roles. -/
structure SecurityContext.Alike (c c' : SecurityContext) : Prop where
  attributes : ∀ name, (c.attribute? name).isSome = (c'.attribute? name).isSome
  roles : c.roles.length = c'.roles.length

namespace SecurityContext.Alike

variable {c c' : SecurityContext}

theorem roles_isEmpty (h : c.Alike c') : c.roles.isEmpty = c'.roles.isEmpty := by
  rw [Bool.eq_iff_iff, List.isEmpty_iff_length_eq_zero, List.isEmpty_iff_length_eq_zero, h.roles]

end SecurityContext.Alike

namespace Bindings

variable {α : Type} {bs bs' : Bindings α}

/-- Which names are bound does not depend on the values. -/
theorem names_bind_congr (h : bs.names = bs'.names) (name : String) (v v' : α) :
    (bs.bind name v).names = (bs'.bind name v').names := by
  induction bs generalizing bs' with
  | nil =>
      obtain rfl : bs' = [] := List.map_eq_nil_iff.mp h.symm
      rfl
  | cons b bs ih =>
      rcases bs' with _ | ⟨b', bs'⟩
      · cases h
      · obtain ⟨hfirst, hrest⟩ := List.cons.inj h
        have hfirst : b.1 = b'.1 := hfirst
        simp only [bind, hfirst]
        split
        · simpa [names] using hrest
        · simpa [names, hfirst] using ih hrest

end Bindings

namespace Restriction

variable {α β : Type} {c c' : SecurityContext}

/-! ## Binding in step -/

/-- Parameters that differ in their values at most. -/
structure SameNames (p p' : ContextParameters) : Prop where
  taken : p.taken = p'.taken
  made : p.made = p'.made
  roles : p.roles? = p'.roles?
  names : p.values.names = p'.values.names

theorem SameNames.refl (p : ContextParameters) : SameNames p p := ⟨rfl, rfl, rfl, rfl⟩

/-- Steps of the binding that give the same and make parameters of the same names. -/
def InStep (b b' : Binder α) : Prop :=
  ∀ p p', SameNames p p' → (b.run p).1 = (b'.run p').1 ∧ SameNames (b.run p).2 (b'.run p').2

namespace InStep

theorem pure (a : α) : InStep (Pure.pure a) (Pure.pure a) := fun _ _ h => ⟨rfl, h⟩

theorem bind {b b' : Binder α} {f f' : α → Binder β} (h : InStep b b')
    (hnext : ∀ a, InStep (f a) (f' a)) : InStep (b >>= f) (b' >>= f') := by
  intro p p' hp
  obtain ⟨hgiven, hleft⟩ := h p p' hp
  have hafter := hnext (b.run p).1 (b.run p).2 (b'.run p').2 hleft
  rw [StateT.run_bind, StateT.run_bind]
  show ((f (b.run p).1).run (b.run p).2).1 = ((f' (b'.run p').1).run (b'.run p').2).1 ∧
    SameNames ((f (b.run p).1).run (b.run p).2).2 ((f' (b'.run p').1).run (b'.run p').2).2
  rw [← hgiven]
  exact hafter

end InStep

theorem inStep_newParameter (base : String) (v v' : Value) :
    InStep (newParameter base v) (newParameter base v') := by
  intro p p' h
  have hname : Text.Fresh.indexed base p.taken = Text.Fresh.indexed base p'.taken := by
    rw [h.taken]
  refine ⟨hname, ?_, h.made, h.roles, ?_⟩
  · exact congrArg₂ List.cons hname h.taken
  · have hnames := Bindings.names_bind_congr h.names (Text.Fresh.indexed base p.taken) v v'
    rw [hname] at hnames
    show (p.values.bind (Text.Fresh.indexed base p.taken) v).names = _
    rw [hname]
    exact hnames

/-- A part of the context gets the same parameter, whatever it holds. -/
theorem inStep_parameterFor (source : Source) :
    InStep (parameterFor c source) (parameterFor c' source) := by
  intro p p' h
  cases hmade : p.made.lookup source with
  | some name =>
      rw [run_parameterFor_of_made hmade, run_parameterFor_of_made (h.made ▸ hmade)]
      exact ⟨rfl, h⟩
  | none =>
      rw [run_parameterFor_of_new hmade, run_parameterFor_of_new (h.made ▸ hmade)]
      obtain ⟨hname, hleft⟩ :=
        inStep_newParameter source.base (source.value c) (source.value c') p p' h
      refine ⟨congrArg namedParameter hname, hleft.taken, ?_, hleft.roles, hleft.names⟩
      show (source, _) :: _ = (source, _) :: _
      rw [hname, hleft.made]

/-- As many roles get as many parameters. -/
theorem inStep_mapM {roles roles' : List Value} (h : roles.length = roles'.length) :
    InStep (roles.mapM (newParameter roleBase)) (roles'.mapM (newParameter roleBase)) := by
  induction roles generalizing roles' with
  | nil =>
      obtain rfl : roles' = [] := List.length_eq_zero_iff.mp h.symm
      exact .pure []
  | cons role roles ih =>
      rcases roles' with _ | ⟨role', roles'⟩
      · cases h
      · rw [List.mapM_cons, List.mapM_cons]
        exact .bind (inStep_newParameter roleBase role role') fun name =>
          .bind (ih (Nat.succ.inj h)) fun names => .pure (name :: names)

theorem inStep_roleParameters (halike : c.Alike c') :
    InStep (roleParameters c) (roleParameters c') := by
  intro p p' h
  cases hmade : p.roles? with
  | some names =>
      rw [run_roleParameters_of_made hmade, run_roleParameters_of_made (h.roles ▸ hmade)]
      exact ⟨rfl, h⟩
  | none =>
      rw [run_roleParameters_of_new hmade, run_roleParameters_of_new (h.roles ▸ hmade)]
      obtain ⟨hnames, hleft⟩ := inStep_mapM halike.roles p p' h
      exact ⟨congrArg (List.map namedParameter) hnames, hleft.taken, hleft.made,
        congrArg some hnames, hleft.names⟩

mutual

theorem inStep_bindContext (halike : c.Alike c') :
    ∀ t : Phrase, InStep (bindContext c t) (bindContext c' t)
  | .node l ts s => by
      by_cases hask : AskRoles l ts
      · obtain ⟨t, ds, r⟩ := hask
        cases hroles : c.roles.isEmpty with
        | true =>
            rw [bindContext_isIn_of_no_roles hroles,
              bindContext_isIn_of_no_roles (halike.roles_isEmpty ▸ hroles)]
            exact .pure alwaysFalse
        | false =>
            rw [bindContext_isIn hroles, bindContext_isIn (halike.roles_isEmpty ▸ hroles)]
            exact .bind (inStep_roleParameters halike) fun _ =>
              .bind (inStep_bindContext halike t) fun _ => .pure _
      cases hl : isParameter l with
      | true =>
          cases l with
          | context item =>
              simp only [bindContext]
              exact inStep_parameterFor (.item item)
          | namedParameter name =>
              simp only [bindContext]
              exact inStep_parameterFor (.attribute name)
          | _ => cases hl
      | false =>
          rw [bindContext_node hl hask, bindContext_node hl hask]
          exact .bind (inStep_bindContextAll halike ts) fun _ => .pure _

theorem inStep_bindContextAll (halike : c.Alike c') :
    ∀ ts : List Phrase, InStep (bindContextAll c ts) (bindContextAll c' ts)
  | [] => .pure []
  | t :: ts =>
      .bind (inStep_bindContext halike t) fun _ =>
        .bind (inStep_bindContextAll halike ts) fun _ => .pure _

end

/-- Whether a condition can be bound depends on the names of the attributes only. -/
theorem isUnbindable_congr (halike : c.Alike c') (t : Phrase) :
    isUnbindable c t = isUnbindable c' t := by
  unfold isUnbindable
  congr 1
  funext n
  cases n.label with
  | namedParameter name =>
      simp only [← Option.not_isSome, halike.attributes name]
  | _ => rfl

theorem inStep_instantiate (halike : c.Alike c') (taken : List String) (path : String)
    (r : AccessRule) : InStep (instantiate c taken path r) (instantiate c' taken path r) := by
  unfold instantiate
  cases r.condition? with
  | none => exact .pure _
  | some condition =>
      simp only [isUnbindable_congr halike condition]
      split
      · exact .pure alwaysFalse
      · exact inStep_bindContext halike _

/-! ## Restricting in step -/

variable {ev : Evaluator} {now : Timestamp} {policy : Policy} {taken : List String}

/-- Both fail, or both succeed with related results. -/
def BothOrNeither {ε : Type} (R : α → β → Prop) (x : Except ε α) (y : Except ε β) : Prop :=
  Outcome.Agree False (fun _ => false) R x y

/-- What restricting for two contexts comes to: the same phrases under the same names. -/
def Matches (found found' : α × ContextParameters) : Prop :=
  found.1 = found'.1 ∧ SameNames found.2 found'.2

/-- A rule says the same of both contexts before any object is known. -/
def SaysAlike (ev : Evaluator) (c c' : SecurityContext) (now : Timestamp) (r : AccessRule) : Prop :=
  BothOrNeither Eq (verdict ev c now r).outcome (verdict ev c' now r).outcome

theorem bothOrNeither_bind {x : Traced α} {y : Traced β} {γ δ : Type} {f : α → Traced γ}
    {f' : β → Traced δ} {R : α → β → Prop} {S : γ → δ → Prop}
    (h : BothOrNeither R x.outcome y.outcome)
    (hnext : ∀ a b, R a b → BothOrNeither S (f a).outcome (f' b).outcome) :
    BothOrNeither S (x >>= f).outcome (y >>= f').outcome := by
  rw [Traced.outcome_bind, Traced.outcome_bind]
  exact Outcome.Agree.bind h fun a b _ _ => hnext a b

theorem matches_conditions (halike : c.Alike c') {rules : List AccessRule}
    (hrules : ∀ r ∈ rules, SaysAlike ev c c' now r) (path : String)
    {p p' : ContextParameters} (h : SameNames p p') :
    BothOrNeither Matches (conditions ev c now taken path rules p).outcome
      (conditions ev c' now taken path rules p').outcome := by
  induction rules generalizing p p' with
  | nil => exact ⟨rfl, h⟩
  | cons r rest ih =>
      have hrest := fun q hq => hrules q (List.mem_cons_of_mem r hq)
      rw [conditions_cons, conditions_cons]
      apply bothOrNeither_bind (hrules r List.mem_cons_self)
      rintro found _ rfl
      cases found with
      | granted => exact ⟨rfl, h⟩
      | denied => exact ih hrest h
      | depends =>
          obtain ⟨hcondition, hleft⟩ := inStep_instantiate halike taken path r p p' h
          apply bothOrNeither_bind (ih hrest hleft)
          rintro q q' ⟨hothers, hfinal⟩
          exact ⟨by rw [hcondition, hothers], hfinal⟩

theorem matches_restrictions (halike : c.Alike c') {kind : AccessKind}
    {paths : List (String × String)}
    (hrules : ∀ p ∈ paths, ∀ r ∈ policy.rulesForType ev.mapping p.2 kind, SaysAlike ev c c' now r)
    {p p' : ContextParameters} (h : SameNames p p') :
    BothOrNeither Matches (restrictions ev policy kind c now taken paths p).outcome
      (restrictions ev policy kind c' now taken paths p').outcome := by
  induction paths generalizing p p' with
  | nil => exact ⟨rfl, h⟩
  | cons first rest ih =>
      obtain ⟨path, type⟩ := first
      have hrest := fun q hq => hrules q (List.mem_cons_of_mem (path, type) hq)
      rw [restrictions_cons, restrictions_cons]
      apply bothOrNeither_bind (matches_conditions halike (hrules _ List.mem_cons_self) path h)
      rintro ⟨made, between⟩ ⟨_, between'⟩ ⟨rfl, hbetween⟩
      rcases made with _ | _ | ⟨t, ts⟩
      · exact ih hrest hbetween
      · exact ⟨rfl, hbetween⟩
      · apply bothOrNeither_bind (ih hrest hbetween)
        rintro q q' ⟨hothers, hfinal⟩
        exact ⟨congrArg (Option.map (anyOf (t :: ts) :: ·)) hothers, hfinal⟩

/-- Restricted queries of one text, whose parameters have the same names. -/
structure SameText (q q' : RestrictedQuery) : Prop where
  text : q.text? = q'.text?
  names : q.parameters.names = q'.parameters.names
  selectedPaths : q.selectedPaths = q'.selectedPaths
  resultType : q.resultType? = q'.resultType?

/-- The applicable rules of a statement say the same of both contexts. -/
def AllSayAlike (ev : Evaluator) (policy : Policy) (s : Statement) (kind : AccessKind)
    (c c' : SecurityContext) (now : Timestamp) : Prop :=
  ∀ p ∈ objectPaths ev.mapping s, ∀ r ∈ policy.rulesForType ev.mapping p.2 (effectiveKind s kind),
    SaysAlike ev c c' now r

theorem sameText_restrict (halike : c.Alike c') {s : Statement} {kind : AccessKind}
    (hrules : AllSayAlike ev policy s kind c c' now) :
    BothOrNeither SameText (restrict ev policy s kind c now).outcome
      (restrict ev policy s kind c' now).outcome := by
  have hmatches : BothOrNeither Matches
      (restrictions ev policy (effectiveKind s kind) c now (declaredAnywhere s)
        (objectPaths ev.mapping s) { taken := s.parameters }).outcome
      (restrictions ev policy (effectiveKind s kind) c' now (declaredAnywhere s)
        (objectPaths ev.mapping s) { taken := s.parameters }).outcome :=
    matches_restrictions halike hrules (.refl _)
  rw [outcome_restrict, outcome_restrict]
  generalize (restrictions ev policy (effectiveKind s kind) c now (declaredAnywhere s)
    (objectPaths ev.mapping s) { taken := s.parameters }).outcome = x at hmatches
  generalize (restrictions ev policy (effectiveKind s kind) c' now (declaredAnywhere s)
    (objectPaths ev.mapping s) { taken := s.parameters }).outcome = y at hmatches
  rcases x with e | ⟨found?, final⟩ <;> rcases y with e' | ⟨found?', final'⟩
  · exact hmatches
  · exact hmatches.1.elim
  · exact hmatches.1.elim
  · obtain ⟨hfound, hnames⟩ := hmatches
    obtain rfl : found? = found?' := hfound
    cases found? with
    | none => exact ⟨rfl, rfl, rfl, rfl⟩
    | some found => exact ⟨rfl, hnames.names, rfl, rfl⟩

end Restriction

open Restriction

/-- For contexts with the same attributes and as many roles, of which every rule that applies
says the same before any object is known, a guard gives the same text, or no text for both,
and parameters of the same names. -/
theorem Guard.restrict_tells_no_value (g : Guard) (text : String) (kind : AccessKind)
    {c c' : SecurityContext} (halike : c.Alike c') (σ : Situation)
    (hrules : ∀ s, ((g.statement text).perform σ).1 = .ok s →
      AllSayAlike (g.evaluator σ.world) g.policy s kind c c' g.now) :
    BothOrNeither SameText ((g.restrict text kind c).perform σ).1
      ((g.restrict text kind c').perform σ).1 := by
  unfold Guard.restrict
  rw [Action.perform_bind, Action.perform_bind]
  obtain ⟨statistics, statements, hleft⟩ := Guard.leaves_statement g text σ
  rcases hstatement : (g.statement text).perform σ with ⟨e | s, τ⟩ <;>
    rw [hstatement] at hrules hleft
  · exact Or.inr rfl
  · obtain rfl : τ = _ := hleft
    simp only [Action.perform_bind, Action.perform_count, Action.perform_get,
      Action.perform_ofTraced]
    exact sameText_restrict halike (hrules s rfl)

theorem Restriction.bothOrNeither_of_toOption {ε α : Type} {x y : Except ε α}
    (h : x.toOption = y.toOption) : BothOrNeither Eq x y := by
  rcases x with e | a <;> rcases y with e' | b
  · exact Or.inr rfl
  · cases h
  · cases h
  · exact Option.some.inj h

/-- A guard over documents with an owner and a level. -/
def levelGuard (policy : Policy) : Guard where
  mapping := { classes :=
    [{ name := "Document", properties := [⟨"owner", .basic⟩, ⟨"level", .basic⟩] }] }
  policy
  strategies := [.simple]
  provider := .current
  remembersReads := false
  now := default
  store? := none

def editor : SecurityContext where
  principal? := some (.string "alice")
  roles := [.string "editor"]
  attributes := [("clearance", .integer 3)]

def auditor : SecurityContext where
  principal? := some (.string "bob")
  roles := [.string "auditor"]
  attributes := [("clearance", .integer 7)]

theorem alike_editor_auditor : editor.Alike auditor where
  attributes name := by
    show (List.lookup name [("clearance", _)]).isSome = (List.lookup name [("clearance", _)]).isSome
    rw [List.lookup_cons, List.lookup_cons]
    cases name == "clearance" <;> rfl
  roles := rfl

def levelTexts : List String :=
  ["GRANT READ ACCESS TO Document d WHERE d.owner = CURRENT_PRINCIPAL",
    "GRANT READ ACCESS TO Document d WHERE d.owner IN (CURRENT_ROLES) AND d.level <= :clearance"]

def levelQuery : String := "SELECT d FROM Document d WHERE d.level <> :cp0"

def levelText : String :=
  "SELECT d FROM Document d WHERE (d.level <> :cp0) AND "
    ++ "((d.owner = :cp1) OR (d.owner IN (:cr0) AND d.level <= :clearance0))"

/-- The query of an editor and that of an auditor have one text. -/
theorem Guard.restrict_tells_no_value_of_level :
    ∃ policy, Policy.ofTexts (levelGuard {}).mapping levelTexts = .ok policy ∧
      let g := levelGuard policy
      let σ : Situation := { world := ⟨[]⟩ }
      BothOrNeither SameText ((g.restrict levelQuery .read editor).perform σ).1
        ((g.restrict levelQuery .read auditor).perform σ).1 ∧
      ((g.restrict levelQuery .read editor).perform σ).1.toOption.bind RestrictedQuery.text? =
        some levelText := by
  have hfound : (Policy.ofTexts (levelGuard {}).mapping levelTexts).toOption.any fun policy =>
      let g := levelGuard policy
      let σ : Situation := { world := ⟨[]⟩ }
      (((g.statement levelQuery).perform σ).1.toOption.all fun s =>
        (objectPaths g.mapping s).all fun p =>
          (policy.rulesForType g.mapping p.2 (effectiveKind s .read)).all fun r =>
            (verdict (g.evaluator σ.world) editor g.now r).outcome.toOption =
              (verdict (g.evaluator σ.world) auditor g.now r).outcome.toOption) &&
      ((g.restrict levelQuery .read editor).perform σ).1.toOption.bind RestrictedQuery.text? =
        some levelText := by
    decide +kernel
  obtain ⟨policy, hpolicy, hfound⟩ := Query.Scope.ok_of_any hfound
  simp only [Bool.and_eq_true, decide_eq_true_eq] at hfound
  obtain ⟨hrules, htext⟩ := hfound
  refine ⟨policy, hpolicy, ?_, htext⟩
  apply Guard.restrict_tells_no_value (levelGuard policy) levelQuery .read alike_editor_auditor
  intro s hs p hp r hr
  rw [hs] at hrules
  have hpaths := List.all_eq_true.mp hrules p hp
  exact bothOrNeither_of_toOption (of_decide_eq_true (List.all_eq_true.mp hpaths r hr))

end RowGuard
