import RowGuard.Proofs.Decisions

/-!
# What a restriction is made of

Whether a query is refused, left as it is or restricted is settled path by path
and rule by rule.  A judgment on the rules, and one on the paths, says what came
of each of them and with which parameters it went on; a restriction succeeds
exactly when there is such a judgment.
-/

namespace RowGuard.Restriction

open Query (AccessKind Phrase Statement)

variable {ev : Evaluator} {c : SecurityContext} {now : Timestamp} {taken : List String}

/-! ## The rules for one path -/

/-- The conditions that rules which grant nothing yet leave for a path, with the
parameters before and after them. -/
inductive Instantiated (ev : Evaluator) (c : SecurityContext) (now : Timestamp)
    (taken : List String) (path : String) :
    List AccessRule → ContextParameters → List Phrase → ContextParameters → Prop
  | nil (state : ContextParameters) : Instantiated ev c now taken path [] state [] state
  | denied {r : AccessRule} {rest : List AccessRule} {state final : ContextParameters}
      {cs : List Phrase} (hverdict : (verdict ev c now r).outcome = .ok .denied)
      (hrest : Instantiated ev c now taken path rest state cs final) :
      Instantiated ev c now taken path (r :: rest) state cs final
  | depends {r : AccessRule} {rest : List AccessRule}
      {state between final : ContextParameters} {t : Phrase} {cs : List Phrase}
      (hverdict : (verdict ev c now r).outcome = .ok .depends)
      (hrun : (instantiate c taken path r).run state = (t, between))
      (hrest : Instantiated ev c now taken path rest between cs final) :
      Instantiated ev c now taken path (r :: rest) state (t :: cs) final

/-- Some rule grants access without its object being known, and those before it
leave it open. -/
def Granted (ev : Evaluator) (c : SecurityContext) (now : Timestamp) (taken : List String)
    (path : String) (rules : List AccessRule) (state final : ContextParameters) : Prop :=
  ∃ earlier r later cs, rules = earlier ++ r :: later ∧
    (verdict ev c now r).outcome = .ok .granted ∧
    Instantiated ev c now taken path earlier state cs final

/-- What is made of the first rule, and what then becomes of the others. -/
theorem conditions_cons (path : String) (r : AccessRule) (rest : List AccessRule)
    (state : ContextParameters) :
    conditions ev c now taken path (r :: rest) state = verdict ev c now r >>= fun found =>
      match found with
      | .granted => pure (none, state)
      | .denied => conditions ev c now taken path rest state
      | .depends =>
          conditions ev c now taken path rest ((instantiate c taken path r).run state).2 >>=
            fun p => pure (p.1.map (((instantiate c taken path r).run state).1 :: ·), p.2) := by
  rw [conditions]
  show (verdict ev c now r >>= fun found => pure (found, state)) >>= _ = _
  rw [bind_assoc]
  apply bind_congr
  intro found
  rw [pure_bind]
  cases found with
  | granted => rfl
  | denied => rfl
  | depends =>
      apply bind_congr
      rintro ⟨_ | cs, final⟩ <;> rfl

variable {path : String} {rules : List AccessRule} {state final : ContextParameters}

theorem conditions_eq_some {cs : List Phrase}
    (h : (conditions ev c now taken path rules state).outcome = .ok (some cs, final)) :
    Instantiated ev c now taken path rules state cs final := by
  induction rules generalizing state cs with
  | nil =>
      cases h
      exact .nil _
  | cons r rest ih =>
      rw [conditions_cons] at h
      obtain ⟨found, hfound, h⟩ := Traced.outcome_bind_eq_ok.mp h
      cases found with
      | granted => cases h
      | denied => exact .denied hfound (ih h)
      | depends =>
          obtain ⟨⟨o, after⟩, hrest, h⟩ := Traced.outcome_bind_eq_ok.mp h
          cases o with
          | none => cases h
          | some others =>
              cases h
              exact .depends hfound rfl (ih hrest)

theorem conditions_eq_none
    (h : (conditions ev c now taken path rules state).outcome = .ok (none, final)) :
    Granted ev c now taken path rules state final := by
  induction rules generalizing state with
  | nil => cases h
  | cons r rest ih =>
      rw [conditions_cons] at h
      obtain ⟨found, hfound, h⟩ := Traced.outcome_bind_eq_ok.mp h
      cases found with
      | granted =>
          cases h
          exact ⟨[], r, rest, [], rfl, hfound, .nil _⟩
      | denied =>
          obtain ⟨earlier, g, later, cs, rfl, hg, hearlier⟩ := ih h
          exact ⟨r :: earlier, g, later, cs, rfl, hg, .denied hfound hearlier⟩
      | depends =>
          obtain ⟨⟨o, after⟩, hrest, h⟩ := Traced.outcome_bind_eq_ok.mp h
          cases o with
          | some others => cases h
          | none =>
              cases h
              obtain ⟨earlier, g, later, cs, rfl, hg, hearlier⟩ := ih hrest
              exact ⟨r :: earlier, g, later, _ :: cs, rfl, hg, .depends hfound rfl hearlier⟩

/-- Only the look at a rule can fail. -/
theorem conditions_eq_error {e : Fault}
    (h : (conditions ev c now taken path rules state).outcome = .error e) :
    ∃ r ∈ rules, (verdict ev c now r).outcome = .error e := by
  induction rules generalizing state with
  | nil => cases h
  | cons r rest ih =>
      rw [conditions_cons] at h
      cases hfound : (verdict ev c now r).outcome with
      | error e' =>
          rw [Traced.bind_of_error hfound] at h
          cases h
          exact ⟨r, by simp, hfound⟩
      | ok found =>
          rw [Traced.bind_of_ok hfound] at h
          have hlater : (∃ g ∈ rest, (verdict ev c now g).outcome = .error e) →
              ∃ g ∈ r :: rest, (verdict ev c now g).outcome = .error e := by
            rintro ⟨g, hg, hfails⟩
            exact ⟨g, List.mem_cons_of_mem r hg, hfails⟩
          cases found with
          | granted => cases h
          | denied => exact hlater (ih h)
          | depends =>
              apply hlater
              cases hrest : (conditions ev c now taken path rest
                  ((instantiate c taken path r).run state).2).outcome with
              | error e' =>
                  rw [Traced.bind_of_error hrest] at h
                  cases h
                  exact ih hrest
              | ok p =>
                  rw [Traced.bind_of_ok hrest] at h
                  cases h

theorem Instantiated.denied_of_nil
    (h : Instantiated ev c now taken path rules state [] final) :
    ∀ r ∈ rules, (verdict ev c now r).outcome = .ok .denied := by
  generalize hcs : ([] : List Phrase) = cs at h
  induction h with
  | nil => simp
  | denied hverdict _ ih => simpa [hverdict] using ih hcs
  | depends => cases hcs

/-! ## All paths -/

/-- What some paths with their types are restricted by: nothing where a rule
grants access anyway, and one of the conditions of its rules elsewhere. -/
inductive Restricted (ev : Evaluator) (policy : Policy) (kind : AccessKind)
    (c : SecurityContext) (now : Timestamp) (taken : List String) :
    List (String × String) → ContextParameters → List Phrase → ContextParameters → Prop
  | nil (state : ContextParameters) : Restricted ev policy kind c now taken [] state [] state
  | granted {path type : String} {rest : List (String × String)}
      {state between final : ContextParameters} {found : List Phrase}
      (hgranted : Granted ev c now taken path (policy.rulesForType ev.mapping type kind) state
        between)
      (hrest : Restricted ev policy kind c now taken rest between found final) :
      Restricted ev policy kind c now taken ((path, type) :: rest) state found final
  | required {path type : String} {rest : List (String × String)}
      {state between final : ContextParameters} {cs found : List Phrase} (hne : cs ≠ [])
      (hmade : Instantiated ev c now taken path (policy.rulesForType ev.mapping type kind) state cs
        between)
      (hrest : Restricted ev policy kind c now taken rest between found final) :
      Restricted ev policy kind c now taken ((path, type) :: rest) state (anyOf cs :: found) final

variable {policy : Policy} {kind : AccessKind} {paths : List (String × String)}

/-- What is made of the first path, and what then becomes of the others. -/
theorem restrictions_cons (path type : String) (rest : List (String × String))
    (state : ContextParameters) :
    restrictions ev policy kind c now taken ((path, type) :: rest) state =
      conditions ev c now taken path (policy.rulesForType ev.mapping type kind) state >>=
        fun p => match p.1 with
          | none => restrictions ev policy kind c now taken rest p.2
          | some [] => pure (none, p.2)
          | some (t :: ts) => restrictions ev policy kind c now taken rest p.2 >>=
              fun q => pure (q.1.map (anyOf (t :: ts) :: ·), q.2) := by
  rw [restrictions]
  show (conditions ev c now taken path (policy.rulesForType ev.mapping type kind) state >>= _) = _
  apply bind_congr
  rintro ⟨_ | _ | ⟨t, ts⟩, between⟩
  · rfl
  · rfl
  · show (restrictions ev policy kind c now taken rest between >>= _) = _
    apply bind_congr
    rintro ⟨_ | found, final⟩ <;> rfl

theorem restrictions_eq_some {found : List Phrase}
    (h : (restrictions ev policy kind c now taken paths state).outcome = .ok (some found, final)) :
    Restricted ev policy kind c now taken paths state found final := by
  induction paths generalizing state found with
  | nil =>
      cases h
      exact .nil _
  | cons p rest ih =>
      obtain ⟨path, type⟩ := p
      rw [restrictions_cons] at h
      obtain ⟨⟨o, between⟩, hmade, h⟩ := Traced.outcome_bind_eq_ok.mp h
      rcases o with _ | _ | ⟨t, ts⟩
      · exact .granted (conditions_eq_none hmade) (ih h)
      · cases h
      · obtain ⟨⟨o, after⟩, hrest, h⟩ := Traced.outcome_bind_eq_ok.mp h
        cases o with
        | none => cases h
        | some others =>
            cases h
            exact .required (List.cons_ne_nil t ts) (conditions_eq_some hmade) (ih hrest)

/-- A restriction comes to nothing only where all rules for a path deny. -/
theorem restrictions_eq_none
    (h : (restrictions ev policy kind c now taken paths state).outcome = .ok (none, final)) :
    ∃ p ∈ paths, ∀ r ∈ policy.rulesForType ev.mapping p.2 kind,
      (verdict ev c now r).outcome = .ok .denied := by
  induction paths generalizing state with
  | nil => cases h
  | cons p rest ih =>
      obtain ⟨path, type⟩ := p
      have hlater : (∃ q ∈ rest, ∀ r ∈ policy.rulesForType ev.mapping q.2 kind,
          (verdict ev c now r).outcome = .ok .denied) →
          ∃ q ∈ (path, type) :: rest, ∀ r ∈ policy.rulesForType ev.mapping q.2 kind,
            (verdict ev c now r).outcome = .ok .denied :=
        fun ⟨q, hq, hdenied⟩ => ⟨q, List.mem_cons_of_mem _ hq, hdenied⟩
      rw [restrictions_cons] at h
      obtain ⟨⟨o, between⟩, hmade, h⟩ := Traced.outcome_bind_eq_ok.mp h
      rcases o with _ | _ | ⟨t, ts⟩
      · exact hlater (ih h)
      · exact ⟨(path, type), by simp, (conditions_eq_some hmade).denied_of_nil⟩
      · obtain ⟨⟨o, after⟩, hrest, h⟩ := Traced.outcome_bind_eq_ok.mp h
        cases o with
        | none =>
            cases h
            exact hlater (ih hrest)
        | some others => cases h

theorem restrictions_eq_error {e : Fault}
    (h : (restrictions ev policy kind c now taken paths state).outcome = .error e) :
    ∃ p ∈ paths, ∃ r ∈ policy.rulesForType ev.mapping p.2 kind,
      (verdict ev c now r).outcome = .error e := by
  induction paths generalizing state with
  | nil => cases h
  | cons p rest ih =>
      obtain ⟨path, type⟩ := p
      have hlater : (∃ q ∈ rest, ∃ r ∈ policy.rulesForType ev.mapping q.2 kind,
          (verdict ev c now r).outcome = .error e) →
          ∃ q ∈ (path, type) :: rest, ∃ r ∈ policy.rulesForType ev.mapping q.2 kind,
            (verdict ev c now r).outcome = .error e :=
        fun ⟨q, hq, hfails⟩ => ⟨q, List.mem_cons_of_mem _ hq, hfails⟩
      rw [restrictions_cons] at h
      cases hmade : (conditions ev c now taken path (policy.rulesForType ev.mapping type kind)
          state).outcome with
      | error e' =>
          rw [Traced.bind_of_error hmade] at h
          cases h
          exact ⟨(path, type), by simp, conditions_eq_error hmade⟩
      | ok p =>
          rw [Traced.bind_of_ok hmade] at h
          obtain ⟨o, between⟩ := p
          rcases o with _ | _ | ⟨t, ts⟩
          · exact hlater (ih h)
          · cases h
          · simp only at h
            cases hrest : (restrictions ev policy kind c now taken rest between).outcome with
            | error e' =>
                rw [Traced.bind_of_error hrest] at h
                cases h
                exact hlater (ih hrest)
            | ok q =>
                rw [Traced.bind_of_ok hrest] at h
                cases h

/-! ## The query -/

variable {s : Statement}

/-- The outcome of a restriction is read off what became of the paths. -/
theorem outcome_restrict (ev : Evaluator) (policy : Policy) (s : Statement) (kind : AccessKind)
    (c : SecurityContext) (now : Timestamp) :
    (restrict ev policy s kind c now).outcome =
      match (restrictions ev policy (effectiveKind s kind) c now (declaredAnywhere s)
        (objectPaths ev.mapping s) { taken := s.parameters }).outcome with
      | .error e => .error e
      | .ok (none, _) => .ok
          { text? := none, parameters := [], selectedPaths := s.selectedPaths
            resultType? := s.resultType? }
      | .ok (some found, final) => .ok
          { text? := some (addRestrictions s found).render, parameters := final.values
            selectedPaths := s.selectedPaths, resultType? := s.resultType? } := by
  show (restrictions ev policy (effectiveKind s kind) c now (declaredAnywhere s)
    (objectPaths ev.mapping s) { taken := s.parameters } >>= _).outcome = _
  cases h : (restrictions ev policy (effectiveKind s kind) c now (declaredAnywhere s)
      (objectPaths ev.mapping s) { taken := s.parameters }).outcome with
  | error e => rw [Traced.bind_of_error h]
  | ok p =>
      rw [Traced.bind_of_ok h]
      rcases p with ⟨_ | found, final⟩ <;> rfl

end RowGuard.Restriction
