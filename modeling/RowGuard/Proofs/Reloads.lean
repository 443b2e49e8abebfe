import RowGuard.Proofs.Acceptance
import RowGuard.Proofs.Compilation
import RowGuard.Proofs.Memories
import RowGuard.Proofs.Sessions

/-!
# Reloaded objects

An object that is reloaded is checked in its new state, but not always by the rules: an
answer that is remembered for its type and its identity is given again, whatever the object
holds by now.  All that a session remembers about reading, the rules have answered at some
moment since the answers were last forgotten.  So a reload that succeeds gives an object
that can be read as it is now, or one like it could be read at such a moment.
-/

namespace RowGuard

open Query (AccessKind)

/-! ## What is learnt about reading -/

namespace Guard

/-- The rules give a remembered answer for some object. -/
def Answered (g : Guard) (w : World) (current? : Option SecurityContext) (r : Remembered) :
    Prop :=
  ∃ object, w.typeOf object = r.type ∧ g.mapping.idOf w object = some r.id ∧
    g.answer w current? .read object = .ok r.readable

/-- Objects and user stay, and an answer that is new in memory is one that the rules give. -/
structure Learns (g : Guard) (σ σ' : Situation) : Prop where
  world : σ'.world = σ.world
  current : σ'.current? = σ.current?
  remembered : ∀ r ∈ σ'.guard.remembered,
    r ∈ σ.guard.remembered ∨ g.Answered σ.world σ.current? r

variable {g : Guard} {σ σ' σ'' : Situation}

namespace Learns

theorem of_subset (hworld : σ'.world = σ.world) (hcurrent : σ'.current? = σ.current?)
    (hremembered : σ'.guard.remembered ⊆ σ.guard.remembered) : g.Learns σ σ' :=
  ⟨hworld, hcurrent, fun _ hr => Or.inl (hremembered hr)⟩

theorem refl (g : Guard) (σ : Situation) : g.Learns σ σ :=
  of_subset rfl rfl (List.Subset.refl _)

theorem trans (h : g.Learns σ σ') (h' : g.Learns σ' σ'') : g.Learns σ σ'' where
  world := h'.world.trans h.world
  current := h'.current.trans h.current
  remembered r hr := by
    rcases h'.remembered r hr with hr | hanswered
    · exact h.remembered r hr
    · rw [h.world, h.current] at hanswered
      exact Or.inr hanswered

end Learns

variable {kind : AccessKind} {object : ObjectId} {α β : Type}

theorem learns_bind {x : Action α} {f : α → Action β} (hx : x.Leaves g.Learns)
    (hf : ∀ a, (f a).Leaves g.Learns) : (x >>= f).Leaves g.Learns :=
  .bind Learns.trans hx hf

theorem learns_pure (a : α) : (pure a : Action α).Leaves g.Learns := Learns.refl g

theorem learns_attempt {x : Action α} (hx : x.Leaves g.Learns) :
    (Action.attempt x).Leaves g.Learns := hx

theorem learns_ofOutcome (outcome : Except Fault α) :
    (Action.ofOutcome outcome).Leaves g.Learns := Learns.refl g

theorem learns_call (c : StoreCall) (outcome : World → Except Fault α) :
    (Action.call c outcome).Leaves g.Learns :=
  fun _ => .of_subset rfl rfl (List.Subset.refl _)

/-- Changing the checks without taking an answer in teaches nothing. -/
theorem learns_changeGuard {f : GuardState → GuardState}
    (hf : ∀ state, (f state).remembered ⊆ state.remembered) :
    (Action.changeGuard f).Leaves g.Learns :=
  fun σ => .of_subset rfl rfl (hf σ.guard)

theorem learns_isAccessible (kind : AccessKind) (object : ObjectId) :
    (g.isAccessible kind object).Leaves g.Learns := by
  intro σ
  have hanswers := answers_isAccessible g kind object σ
  generalize (g.isAccessible kind object).perform σ = served at hanswers ⊢
  obtain ⟨outcome, σ'⟩ := served
  cases hanswers with
  | exempt => exact .refl g _
  | recalled => exact .of_subset rfl rfl (List.Subset.refl _)
  | asked => exact .of_subset rfl rfl (List.Subset.refl _)
  | failed => exact .of_subset rfl rfl (List.Subset.refl _)
  | remembered _ _ _ hkey _ hanswer =>
      refine ⟨rfl, rfl, fun r hr => ?_⟩
      rcases List.mem_cons.mp hr with rfl | hr
      · obtain rfl := eq_read_of_memoryKey? hkey
        exact Or.inr ⟨object, rfl, idOf_of_memoryKey? hkey, hanswer⟩
      · exact Or.inl hr

theorem learns_enforce (kind : AccessKind) (object : ObjectId) :
    (g.enforce kind object).Leaves g.Learns := by
  intro σ
  obtain ⟨outcome, h, -⟩ := perform_enforce g kind object σ
  rw [h]
  exact learns_isAccessible kind object σ

theorem learns_enforceAll (cs : List Check) : (g.enforceAll cs).Leaves g.Learns := by
  induction cs with
  | nil => exact learns_pure ()
  | cons c cs ih => exact learns_bind (learns_enforce c.kind c.object) fun _ => ih

theorem learns_checkAccess (kind : AccessKind) (object : ObjectId) :
    (g.checkAccess kind object).Leaves g.Learns := by
  intro σ
  unfold checkAccess
  rw [Action.perform_bind_of_ok (Action.perform_get σ)]
  dsimp only
  split
  · exact .refl g σ
  · split
    · exact .of_subset rfl rfl (List.Subset.refl _)
    · exact learns_enforce kind object σ

theorem learns_checkNow : g.checkNow.Leaves g.Learns := by
  intro σ
  rcases hdepth : σ.guard.delayDepth with _ | _ | depth
  · rw [perform_checkNow_unmatched g hdepth]
    exact .refl g σ
  · rw [perform_checkNow_outermost g hdepth]
    have hclosed : g.Learns σ { σ with guard := { σ.guard with delayDepth := 0, pending := [] } } :=
      .of_subset rfl rfl (List.Subset.refl _)
    exact hclosed.trans (learns_enforceAll σ.guard.pending _)
  · rw [perform_checkNow_inner g hdepth]
    exact .of_subset rfl rfl (List.Subset.refl _)

theorem learns_filterReadable (os : List ObjectId) :
    (g.filterReadable os).Leaves g.Learns := by
  induction os with
  | nil => exact learns_pure []
  | cons o os ih =>
      exact learns_bind (learns_isAccessible .read o) fun _ => learns_bind ih fun _ => learns_pure _

theorem learns_reply (request : GuardRequest) : (g.reply request).Leaves g.Learns := by
  cases request with
  | isAccessible kind object =>
      exact learns_bind (learns_isAccessible kind object) fun _ => learns_pure _
  | checkAccess kind object =>
      exact learns_bind (learns_checkAccess kind object) fun _ => learns_pure _
  | delayChecks =>
      exact learns_bind (learns_changeGuard fun _ => List.Subset.refl _) fun _ => learns_pure _
  | checkNow => exact learns_bind learns_checkNow fun _ => learns_pure _
  | enableChecks =>
      exact learns_bind (learns_changeGuard fun _ => List.Subset.refl _) fun _ => learns_pure _
  | disableChecks =>
      exact learns_bind (learns_changeGuard fun _ => List.Subset.refl _) fun _ => learns_pure _
  | ignoreChecks kind objects =>
      exact learns_bind (learns_changeGuard fun _ => List.Subset.refl _) fun _ => learns_pure _
  | filterReadable objects =>
      exact learns_bind (learns_filterReadable objects) fun _ => learns_pure _
  | forget =>
      exact learns_bind (learns_changeGuard fun _ => List.nil_subset _) fun _ => learns_pure _

/-- Restricting a query reads nothing that is remembered about objects and adds nothing to it. -/
theorem learns_restrict (text : String) (kind : AccessKind) (c : SecurityContext) :
    (g.restrict text kind c).Leaves g.Learns := by
  apply learns_bind
  · intro σ
    obtain ⟨statistics, statements, hcompiles⟩ := leaves_statement g text σ
    rw [hcompiles]
    exact .of_subset rfl rfl (List.Subset.refl _)
  · exact fun _ _ => .of_subset rfl rfl (List.Subset.refl _)

/-- A check that is made is granted by the rules, unless a grant is remembered for the type
and the identity of the object. -/
theorem Permits.answer_or_recalled (h : g.Permits ⟨object, .read⟩ σ σ')
    (hmade : ¬ IsExempt σ.guard ⟨object, .read⟩) :
    g.answer σ.world σ.current? .read object = .ok true ∨
      ∃ id, g.memoryKey? σ.world .read object = some id ∧ ∃ r ∈ σ.guard.remembered,
        r.type = σ.world.typeOf object ∧ σ.world.same r.id id ∧ r.readable := by
  have hpermits : (g.isAccessible .read object).perform σ = (.ok true, σ') := h
  have hanswers := answers_isAccessible g .read object σ
  rw [hpermits] at hanswers
  generalize houtcome : (Except.ok true : Except Fault Bool) = outcome at hanswers
  cases hanswers with
  | exempt hexempt => exact absurd hexempt hmade
  | recalled _ _ hkey hknown =>
      obtain ⟨r, hfind, hreadable⟩ := Option.map_eq_some_iff.mp hknown
      obtain ⟨htype, hsame⟩ : r.type = σ.world.typeOf object ∧ σ.world.same r.id _ := by
        simpa using List.find?_some hfind
      exact Or.inr ⟨_, hkey, r, List.mem_of_find?_eq_some hfind, htype, hsame,
        hreadable.trans (Except.ok.inj houtcome).symm⟩
  | asked => exact Or.inl rfl
  | remembered _ _ _ _ _ hanswer => exact Or.inl hanswer
  | failed => cases houtcome

end Guard

/-! ## Deeds -/

/-- All that a user can do with a session. -/
inductive Deed where
  | serve (request : SessionRequest)
  | reply (request : GuardRequest)
  | askNew (kind : AccessKind) (type : String) (properties : Bindings Value)
  | query (request : QueryRequest)

/-- The moments that may be remembered after a deed: what the session had around it when
answers were given, from the last time on that they were forgotten. -/
def Deed.moments (d : Deed) (past : List Surroundings) (now : Surroundings) :
    List Surroundings :=
  match d with
  | .reply .forget => []
  | _ => past ++ [now]

theorem Guard.leaves_isAccessibleNew (g : Guard) (kind : AccessKind) (type : String)
    (properties : Bindings Value) : (g.isAccessibleNew kind type properties).Leaves
      fun σ σ' => σ'.guard = σ.guard := by
  intro σ
  unfold isAccessibleNew
  split
  · rfl
  · rw [Action.perform_bind_of_ok (Action.perform_get σ)]
    split
    · rfl
    · rw [Action.perform_bind, ContextProvider.perform_context]
      cases g.provider.contextFor σ.current? with
      | error e => rfl
      | ok c => rfl

namespace SecureSession

variable {s : SecureSession} {past : List Surroundings} {σ σ' : Situation}

def carryOut (s : SecureSession) : Deed → Action Unit
  | .serve request => do
      let _ ← s.serve request
      return ()
  | .reply request => do
      let _ ← s.guard.reply request
      return ()
  | .askNew kind type properties => do
      let _ ← s.guard.isAccessibleNew kind type properties
      return ()
  | .query request => do
      let _ ← s.results request
      return ()

theorem learns_find (type : String) (id : Value) : (s.find type id).Leaves s.guard.Learns := by
  refine Guard.learns_bind (x := Guard.delayChecks)
    (Guard.learns_changeGuard fun _ => List.Subset.refl _) fun _ => ?_
  refine Guard.learns_bind (Guard.learns_attempt (Guard.learns_call _ _)) fun found => ?_
  refine Guard.learns_bind (Guard.learns_attempt ?_) fun noted => ?_
  · rcases found with e | _ | object
    · exact Guard.learns_pure ()
    · exact Guard.learns_pure ()
    · exact Guard.learns_checkAccess .read object
  refine Guard.learns_bind (Guard.learns_attempt Guard.learns_checkNow) fun checked => ?_
  refine Guard.learns_bind (Guard.learns_ofOutcome found) fun object? => ?_
  refine Guard.learns_bind (Guard.learns_ofOutcome noted) fun _ => ?_
  exact Guard.learns_bind (Guard.learns_ofOutcome checked) fun _ => Guard.learns_pure object?

theorem learns_change (kind : AccessKind) (object : ObjectId) (call : StoreCall) {α : Type}
    (outcome : World → Except Fault α) :
    (do s.guard.checkAccess kind object; Action.call call outcome : Action α).Leaves
      s.guard.Learns :=
  Guard.learns_bind (Guard.learns_checkAccess kind object) fun _ => Guard.learns_call _ _

/-- Only reloading changes what objects hold. -/
theorem learns_serve {request : SessionRequest} (h : ∀ object, request ≠ .refresh object) :
    (s.serve request).Leaves s.guard.Learns := by
  cases request with
  | find type id => exact learns_find type id
  | persist object =>
      exact Guard.learns_bind (learns_change .create object _ _) fun _ => Guard.learns_pure _
  | merge object =>
      exact Guard.learns_bind (learns_change .update object _ _) fun _ => Guard.learns_pure _
  | remove object =>
      exact Guard.learns_bind (learns_change .delete object _ _) fun _ => Guard.learns_pure _
  | refresh object => exact absurd rfl (h object)
  | delayChecks =>
      exact Guard.learns_bind (x := Guard.delayChecks)
        (Guard.learns_changeGuard fun _ => List.Subset.refl _) fun _ => Guard.learns_pure _
  | checkNow => exact Guard.learns_bind Guard.learns_checkNow fun _ => Guard.learns_pure _

theorem learns_results (q : QueryRequest) : (s.results q).Leaves s.guard.Learns := by
  apply Guard.learns_bind
  · apply Guard.learns_bind
    · intro σ
      rw [ContextProvider.perform_context]
      exact .refl _ σ
    · exact Guard.learns_restrict q.text .read
  · refine fun r => Guard.learns_bind (Guard.learns_ofOutcome _) fun query? => ?_
    cases query? with
    | none => exact Guard.learns_pure _
    | some query => exact Guard.learns_call _ _

/-- What is new in memory after a deed, the rules answer in the situation that it leaves: a
deed that changes objects does so before anything is asked. -/
theorem remembered_carryOut (d : Deed) (σ : Situation) :
    ∀ r ∈ ((s.carryOut d).perform σ).2.guard.remembered, r ∈ σ.guard.remembered ∨
      s.guard.Answered ((s.carryOut d).perform σ).2.world
        ((s.carryOut d).perform σ).2.current? r := by
  have hlearns : ∀ {τ τ' : Situation}, τ.guard.remembered = σ.guard.remembered →
      s.guard.Learns τ τ' → ∀ r ∈ τ'.guard.remembered, r ∈ σ.guard.remembered ∨
        s.guard.Answered τ'.world τ'.current? r := by
    intro τ τ' hτ h r hr
    rw [h.world, h.current, ← hτ]
    exact h.remembered r hr
  cases d with
  | serve request =>
      rw [carryOut, Action.perform_bind_pure]
      by_cases hrefresh : ∃ object, request = .refresh object
      · obtain ⟨object, rfl⟩ := hrefresh
        rw [serve, Action.perform_bind_pure, perform_refresh]
        cases s.store.refresh σ.world object with
        | error e => exact fun r hr => Or.inl hr
        | ok world =>
            exact hlearns (τ := { σ with calls := σ.calls ++ [.refresh object], world }) rfl
              (Guard.learns_checkAccess .read object _)
      · exact hlearns rfl (learns_serve (fun object h => hrefresh ⟨object, h⟩) σ)
  | reply request =>
      rw [carryOut, Action.perform_bind_pure]
      exact hlearns rfl (Guard.learns_reply request σ)
  | askNew kind type properties =>
      rw [carryOut, Action.perform_bind_pure]
      intro r hr
      rw [s.guard.leaves_isAccessibleNew kind type properties σ] at hr
      exact Or.inl hr
  | query request =>
      rw [carryOut, Action.perform_bind_pure]
      exact hlearns rfl (learns_results request σ)

/-! ## Where the answers in memory come from -/

/-- The runs of a session with the moments that may be remembered.  Between two deeds
anything may happen around the session. -/
inductive Recorded (s : SecureSession) : List Surroundings → Situation → Prop
  | start (σ : Situation) : σ.guard = {} → Recorded s [] σ
  | step {past : List Surroundings} {σ σ' : Situation} {outcome : Except Fault Unit}
      (e : Surroundings) (d : Deed) : Recorded s past σ →
      ((s.withStore e.store).carryOut d).perform (σ.amid e) = (outcome, σ') →
      Recorded s (d.moments past ⟨e.store, σ'.world, σ'.current?⟩) σ'

theorem remembered_forget (s : SecureSession) (σ : Situation) :
    ((s.carryOut (.reply .forget)).perform σ).2.guard.remembered = [] := rfl

/-- All that is remembered about reading, the rules have answered at one of the moments. -/
theorem Recorded.answered (h : s.Recorded past σ) : ∀ r ∈ σ.guard.remembered,
    ∃ m ∈ past, (s.withStore m.store).guard.Answered m.world m.current? r := by
  induction h with
  | start σ hfresh =>
      rw [hfresh]
      exact nofun
  | @step past σ σ' outcome e d _ hperform ih =>
      intro r hr
      by_cases hforget : d = .reply .forget
      · have hempty := remembered_forget (s.withStore e.store) (σ.amid e)
        rw [← hforget, hperform] at hempty
        rw [hempty] at hr
        cases hr
      · have hmoments : d.moments past ⟨e.store, σ'.world, σ'.current?⟩ =
            past ++ [⟨e.store, σ'.world, σ'.current?⟩] := by
          unfold Deed.moments
          split
          · exact absurd rfl hforget
          · rfl
        rw [hmoments]
        have hlearnt := remembered_carryOut (s := s.withStore e.store) d (σ.amid e)
        rw [hperform] at hlearnt
        rcases hlearnt r hr with hold | hnew
        · obtain ⟨m, hm, hanswered⟩ := ih r hold
          exact ⟨m, List.mem_append_left _ hm, hanswered⟩
        · exact ⟨_, List.mem_append_right _ (List.mem_singleton_self _), hnew⟩

/-! ## Reloading -/

/-- An object with the type and the identity that an object has now could be read at an
earlier moment, and the answer is still remembered. -/
def RecallsGrant (s : SecureSession) (state : GuardState) (w : World) (object : ObjectId)
    (m : Surroundings) : Prop :=
  ∃ id, s.guard.memoryKey? w .read object = some id ∧
    ∃ r ∈ state.remembered, r.type = w.typeOf object ∧ w.same r.id id ∧ r.readable ∧
      (s.withStore m.store).guard.Answered m.world m.current? r

/-- Reloading an object without an open delay succeeds only if the rules let the current
user read the object as it has been reloaded, or an object like it could be read before. -/
theorem Recorded.readable_of_refresh (h : s.Recorded past σ)
    (hmode : σ.guard.mode = .checking) (hdepth : σ.guard.delayDepth = 0) (e : Surroundings)
    (object : ObjectId) (hmade : ⟨object, .read⟩ ∉ σ.guard.ignored)
    (hrefresh : ((s.withStore e.store).refresh object).perform (σ.amid e) = (.ok (), σ')) :
    ∃ world, e.store.refresh e.world object = .ok world ∧ σ'.world = world ∧
      ((∀ m ∈ past, ¬ s.RecallsGrant σ.guard world object m) →
        (s.withStore e.store).guard.answer world e.current? .read object = .ok true) := by
  rw [perform_refresh_now (σ := σ.amid e) _ object hmode hdepth] at hrefresh
  cases hreload : e.store.refresh e.world object with
  | error f =>
      have hfailed : (s.withStore e.store).store.refresh (σ.amid e).world object = .error f :=
        hreload
      rw [hfailed] at hrefresh
      cases hrefresh
  | ok world =>
      have hreloaded : (s.withStore e.store).store.refresh (σ.amid e).world object = .ok world :=
        hreload
      rw [hreloaded] at hrefresh
      have hpermits := Guard.permits_of_enforce hrefresh
      refine ⟨world, rfl, hpermits.asks.world, fun hnone => ?_⟩
      have hexempt : ¬ Guard.IsExempt σ.guard ⟨object, .read⟩ := by
        rintro (hdisabled | hignored)
        · rw [hmode] at hdisabled
          cases hdisabled
        · exact hmade (List.contains_iff_mem.mp hignored)
      rcases hpermits.answer_or_recalled hexempt with hanswer | ⟨id, hkey, r, hr, hgrant⟩
      · exact hanswer
      · obtain ⟨htype, hsame, hreadable⟩ := hgrant
        obtain ⟨m, hm, hanswered⟩ := h.answered r hr
        exact absurd ⟨id, hkey, r, hr, htype, hsame, hreadable, hanswered⟩ (hnone m hm)

/-- A store that reloads the only document with a level, which was another one before. -/
def shelfSurroundings (level reloaded : String) : Surroundings where
  store := ({
    objects := [0], refreshed := [(0, [("level", .string reloaded)])] } : StoreScript).store
  world := ⟨[⟨"Document", some "id", [("id", .integer 1), ("level", .string level)]⟩]⟩
  current? := none

/-- A session that remembers what can be read. -/
def shelfSession (policy : Policy) : SecureSession where
  guard := {
    mapping := { classes := [{
      name := "Document", idProperty? := some "id"
      properties := [⟨"id", .basic⟩, ⟨"level", .basic⟩] }] }
    policy, strategies := [.simple], provider := .current, remembersReads := true
    now := default, store? := none }
  store := ({} : StoreScript).store

/-- Documents can be read as long as they are open. -/
def shelfTexts : List String := ["GRANT READ ACCESS TO Document d WHERE d.level = 'open'"]

/-- Where a session has searched for a document. -/
def shelfSituation (policy : Policy) (e : Surroundings) (id : Value) : Situation :=
  ((((shelfSession policy).withStore e.store).carryOut (.serve (.find "Document" id))).perform
    { world := e.world }).2

theorem recorded_shelf (policy : Policy) (e : Surroundings) (hcurrent : e.current? = none)
    (id : Value) : ∃ past, (shelfSession policy).Recorded past (shelfSituation policy e id) := by
  refine ⟨_, .step e (.serve (.find "Document" id)) (.start { world := e.world } rfl)
    (Prod.ext rfl ?_)⟩
  rw [shelfSituation, Situation.amid, hcurrent]

/-- Whether a document can be read after it was reloaded amid `e`, provided that this
succeeds and that nobody has changed the checks. -/
def shelfAnswer? (policy : Policy) (σ : Situation) (e : Surroundings) : Option Bool :=
  let s := (shelfSession policy).withStore e.store
  if σ.guard.mode = .checking ∧ σ.guard.delayDepth = 0 ∧ ⟨0, .read⟩ ∉ σ.guard.ignored ∧
      ((s.refresh 0).perform (σ.amid e)).1.toOption.isSome then
    (e.store.refresh e.world 0).toOption.bind fun world =>
      (s.guard.answer world e.current? .read 0).toOption
  else none

theorem of_shelfAnswer? {policy : Policy} {e : Surroundings} {answer : Bool}
    (h : shelfAnswer? policy σ e = some answer) :
    σ.guard.mode = .checking ∧ σ.guard.delayDepth = 0 ∧ ⟨0, .read⟩ ∉ σ.guard.ignored ∧
      ∃ σ' world,
        (((shelfSession policy).withStore e.store).refresh 0).perform (σ.amid e) =
          (.ok (), σ') ∧
        e.store.refresh e.world 0 = .ok world ∧
        ((shelfSession policy).withStore e.store).guard.answer world e.current? .read 0 =
          .ok answer := by
  unfold shelfAnswer? at h
  simp only at h
  split at h
  · rename_i hmade
    obtain ⟨hmode, hdepth, hignored, hrefresh⟩ := hmade
    obtain ⟨world, hworld, hanswer⟩ := Option.bind_eq_some_iff.mp h
    obtain ⟨u, hok⟩ := Option.isSome_iff_exists.mp hrefresh
    exact ⟨hmode, hdepth, hignored, _, world, Prod.ext (Query.Scope.ok_iff_toOption.mpr hok) rfl,
      Query.Scope.ok_iff_toOption.mpr hworld, Query.Scope.ok_iff_toOption.mpr hanswer⟩
  · cases h

/-- A document that was closed is open when it is reloaded, and it can be read. -/
theorem Recorded.readable_of_refresh_opened :
    ∃ policy past σ' world,
      let σ := shelfSituation policy (shelfSurroundings "closed" "closed") (.integer 2)
      let e := shelfSurroundings "closed" "open"
      Policy.ofTexts (shelfSession {}).guard.mapping shelfTexts = .ok policy ∧
      (shelfSession policy).Recorded past σ ∧
      (((shelfSession policy).withStore e.store).refresh 0).perform (σ.amid e) = (.ok (), σ') ∧
      e.store.refresh e.world 0 = .ok world ∧
      ((shelfSession policy).withStore e.store).guard.answer world e.current? .read 0 =
        .ok true := by
  have hfound : (Policy.ofTexts (shelfSession {}).guard.mapping shelfTexts).toOption.any
      fun policy =>
        let σ := shelfSituation policy (shelfSurroundings "closed" "closed") (.integer 2)
        let e := shelfSurroundings "closed" "open"
        σ.guard.remembered.isEmpty && (shelfAnswer? policy σ e).isSome := by
    decide +kernel
  obtain ⟨policy, hpolicy, hfound⟩ := Query.Scope.ok_of_any hfound
  obtain ⟨hempty, hanswered⟩ := (Bool.and_eq_true _ _).mp hfound
  obtain ⟨answer, hanswer⟩ := Option.isSome_iff_exists.mp hanswered
  obtain ⟨hmode, hdepth, hignored, σ', world, hrefresh, hreload, -⟩ := of_shelfAnswer? hanswer
  obtain ⟨past, hrecorded⟩ :=
    recorded_shelf policy (shelfSurroundings "closed" "closed") rfl (.integer 2)
  obtain ⟨reloaded, hsame, -, hreadable⟩ := Recorded.readable_of_refresh hrecorded hmode hdepth
    (shelfSurroundings "closed" "open") 0 hignored hrefresh
  obtain rfl := Except.ok.inj (hreload.symm.trans hsame)
  refine ⟨policy, past, σ', world, hpolicy, hrecorded, hrefresh, hreload, hreadable ?_⟩
  rintro m - ⟨id, -, r, hr, -⟩
  rw [List.isEmpty_iff.mp hempty] at hr
  cases hr

/-- A document that was open is closed when it is reloaded; reloading succeeds all the same,
since it is remembered that the document can be read. -/
theorem refresh_recalls_grant :
    ∃ policy past σ' world,
      let σ := shelfSituation policy (shelfSurroundings "open" "open") (.integer 1)
      let e := shelfSurroundings "open" "closed"
      Policy.ofTexts (shelfSession {}).guard.mapping shelfTexts = .ok policy ∧
      (shelfSession policy).Recorded past σ ∧ σ.guard.mode = .checking ∧
      σ.guard.delayDepth = 0 ∧ ⟨0, .read⟩ ∉ σ.guard.ignored ∧
      (((shelfSession policy).withStore e.store).refresh 0).perform (σ.amid e) = (.ok (), σ') ∧
      e.store.refresh e.world 0 = .ok world ∧
      ((shelfSession policy).withStore e.store).guard.answer world e.current? .read 0 =
        .ok false := by
  have hfound : (Policy.ofTexts (shelfSession {}).guard.mapping shelfTexts).toOption.any
      fun policy =>
        let σ := shelfSituation policy (shelfSurroundings "open" "open") (.integer 1)
        shelfAnswer? policy σ (shelfSurroundings "open" "closed") = some false := by
    decide +kernel
  obtain ⟨policy, hpolicy, hfound⟩ := Query.Scope.ok_of_any hfound
  obtain ⟨hmode, hdepth, hignored, σ', world, hrefresh, hreload, hanswer⟩ :=
    of_shelfAnswer? (of_decide_eq_true hfound)
  obtain ⟨past, hrecorded⟩ :=
    recorded_shelf policy (shelfSurroundings "open" "open") rfl (.integer 1)
  exact ⟨policy, past, σ', world, hpolicy, hrecorded, hmode, hdepth, hignored, hrefresh, hreload,
    hanswer⟩

end SecureSession

end RowGuard
