import RowGuard.Proofs.Checks
import RowGuard.Proofs.Shapes
import RowGuard.Session.Secure
import RowGuard.Store.Scripted

/-!
# Runs of secure sessions

Between two requests to a session anything may happen around it: the store may
behave in another way, objects may hold something else, and someone else may be
asking.  Whatever happens, the history of the requests tells how many delays are open
and which checks wait for the end of the last of them.  A request ends the delays that
it opens, also where the store or a check fails in its middle, so what it leaves of the
checks depends on the request and its outcome only.
-/

namespace RowGuard

open Query (AccessKind)

/-! ## Runs -/

inductive SessionRequest where
  | find (type : String) (id : Value)
  | persist (object : ObjectId)
  | merge (object : ObjectId)
  | remove (object : ObjectId)
  | refresh (object : ObjectId)
  | delayChecks
  | checkNow

/-- What a session finds around it when a request comes in. -/
structure Surroundings where
  store : Store
  world : World
  current? : Option SecurityContext

def Situation.amid (σ : Situation) (e : Surroundings) : Situation :=
  { σ with world := e.world, current? := e.current? }

/-- The use of an object that a call to the store makes, if it changes something. -/
def StoreCall.change? : StoreCall → Option Check
  | .persist object => some ⟨object, .create⟩
  | .merge object => some ⟨object, .update⟩
  | .remove object => some ⟨object, .delete⟩
  | _ => none

namespace SecureSession

/-- The session, its store behaving in another way. -/
def withStore (s : SecureSession) (store : Store) : SecureSession :=
  { guard := { s.guard with store? := some store }, store }

/-- Serves a request; the object that it gives, if any. -/
def serve (s : SecureSession) : SessionRequest → Action (Option ObjectId)
  | .find type id => s.find type id
  | .persist object => do s.persist object; return none
  | .merge object => do return some (← s.merge object)
  | .remove object => do s.remove object; return none
  | .refresh object => do s.refresh object; return none
  | .delayChecks => do Guard.delayChecks; return none
  | .checkNow => do s.guard.checkNow; return none

/-- A request with what it came to. -/
structure Served where
  request : SessionRequest
  outcome : Except Fault (Option ObjectId)

/-- The runs of a session, from its start and with all requests served so far. -/
inductive Run (s : SecureSession) : List Served → Situation → Prop
  | start (σ : Situation) : σ.guard = {} → Run s [] σ
  | step {history : List Served} {σ σ' : Situation} {outcome : Except Fault (Option ObjectId)}
      (e : Surroundings) (request : SessionRequest) : Run s history σ →
      ((s.withStore e.store).serve request).perform (σ.amid e) = (outcome, σ') →
      Run s (history ++ [⟨request, outcome⟩]) σ'

/-! ## Open delays and waiting checks -/

namespace Served

/-- The use of an object that a request comes with, if it came to that. -/
def check? (r : Served) : Option Check :=
  match r.request, r.outcome with
  | .persist object, _ => some ⟨object, .create⟩
  | .merge object, _ => some ⟨object, .update⟩
  | .remove object, _ => some ⟨object, .delete⟩
  | .refresh object, .ok _ => some ⟨object, .read⟩
  | .find _ _, .ok (some object) => some ⟨object, .read⟩
  | _, _ => none

/-- How many delays are open after a request; an end that matches no delay changes nothing. -/
def delaysAfter (r : Served) (delays : Nat) : Nat :=
  match r.request with
  | .delayChecks => delays + 1
  | .checkNow => delays - 1
  | _ => delays

theorem delaysAfter_of_check? {r : Served} {c : Check} (h : r.check? = some c) (delays : Nat) :
    r.delaysAfter delays = delays := by
  obtain ⟨request, outcome⟩ := r
  cases request <;> first | rfl | cases h

end Served

/-- How many delays have not been ended. -/
def openDelays (history : List Served) : Nat :=
  history.foldl (fun delays r => r.delaysAfter delays) 0

@[simp]
theorem openDelays_concat (history : List Served) (r : Served) :
    openDelays (history ++ [r]) = r.delaysAfter (openDelays history) := by
  simp [openDelays]

/-- A check has come in, and some delay has been open ever since. -/
def Waits (history : List Served) (c : Check) : Prop :=
  ∃ earlier r later, history = earlier ++ r :: later ∧ r.check? = some c ∧
    ∀ seen, seen <+: later → 0 < openDelays (earlier ++ r :: seen)

theorem Waits.openDelays_pos {history : List Served} {c : Check} (h : Waits history c) :
    0 < openDelays history := by
  obtain ⟨earlier, r, later, rfl, -, hopen⟩ := h
  exact hopen later (List.prefix_refl later)

theorem not_waits_nil (c : Check) : ¬ Waits [] c := fun h => absurd h.openDelays_pos (by decide)

theorem waits_concat {history : List Served} {r : Served} {c : Check} :
    Waits (history ++ [r]) c ↔
      0 < openDelays (history ++ [r]) ∧ (Waits history c ∨ r.check? = some c) := by
  constructor
  · intro h
    refine ⟨h.openDelays_pos, ?_⟩
    obtain ⟨earlier, q, later, hsplit, hcheck, hopen⟩ := h
    rcases List.eq_nil_or_concat later with rfl | ⟨seen, last, rfl⟩
    · obtain ⟨-, hlast⟩ := List.append_inj' hsplit rfl
      cases hlast
      exact Or.inr hcheck
    · rw [List.concat_eq_append] at hsplit hopen
      have hsplit : history ++ [r] = (earlier ++ q :: seen) ++ [last] := by
        rw [hsplit, List.append_assoc, List.cons_append]
      obtain ⟨rfl, -⟩ := List.append_inj' hsplit rfl
      exact Or.inl ⟨earlier, q, seen, rfl, hcheck, fun first hfirst =>
        hopen first (hfirst.trans (List.prefix_append seen [last]))⟩
  · rintro ⟨hlast, ⟨earlier, q, later, rfl, hcheck, hopen⟩ | hcheck⟩
    · refine ⟨earlier, q, later ++ [r], by simp, hcheck, fun seen hseen => ?_⟩
      rcases List.prefix_concat_iff.mp hseen with rfl | hseen
      · simpa using hlast
      · exact hopen seen hseen
    · refine ⟨history, r, [], rfl, hcheck, fun seen hseen => ?_⟩
      rwa [List.prefix_nil.mp hseen]

/-! ## What a request leaves of the checks -/

/-- The checks are on, and none waits without a delay. -/
structure Settled (state : GuardState) : Prop where
  mode : state.mode = .checking
  idle : state.delayDepth = 0 → state.pending = []

/-- A request changes the checks as it and its outcome tell. -/
structure Enters (r : Served) (state state' : GuardState) : Prop where
  mode : state'.mode = state.mode
  ignored : state'.ignored = state.ignored
  depth : state'.delayDepth = r.delaysAfter state.delayDepth
  pending : ∀ c, c ∈ state'.pending ↔
    0 < state'.delayDepth ∧ (c ∈ state.pending ∨ r.check? = some c)

namespace Enters

variable {r : Served} {σ σ' : Situation}

/-- Without an open delay only answers are remembered. -/
theorem of_asks (h : Settled σ.guard) (hdepth : σ.guard.delayDepth = 0)
    (hneutral : r.delaysAfter 0 = 0) (hasks : σ.Asks σ') : Enters r σ.guard σ'.guard := by
  rw [hasks.guard]
  exact ⟨rfl, rfl, by simp [hdepth, hneutral], by simp [hdepth, h.idle hdepth]⟩

/-- A request that comes with no use of an object. -/
theorem of_unused {state : GuardState} (h : Settled state)
    (hneutral : r.delaysAfter state.delayDepth = state.delayDepth) (hcheck : r.check? = none) :
    Enters r state state := by
  refine ⟨rfl, rfl, hneutral.symm, fun c => ?_⟩
  rcases Nat.eq_zero_or_pos state.delayDepth with hidle | hopen
  · simp [hidle, h.idle hidle]
  · simp [hopen, hcheck]

theorem of_note {state : GuardState} {c : Check} (hopen : 0 < state.delayDepth)
    (hcheck : r.check? = some c) :
    Enters r state { state with pending := Guard.note c state.pending } :=
  ⟨rfl, rfl, (Served.delaysAfter_of_check? hcheck _).symm, fun d => by
    simp [hopen, hcheck, eq_comm]⟩

theorem checkAccess (h : Settled σ.guard) (g : Guard) {kind : AccessKind} {object : ObjectId}
    (hcheck : r.check? = some ⟨object, kind⟩) :
    Enters r σ.guard ((g.checkAccess kind object).perform σ).2.guard := by
  rcases Nat.eq_zero_or_pos σ.guard.delayDepth with hidle | hopen
  · rw [Guard.perform_checkAccess_now g h.mode hidle]
    exact of_asks h hidle (Served.delaysAfter_of_check? hcheck 0)
      (Guard.leaves_enforce g kind object σ)
  · rw [Guard.perform_checkAccess_later g h.mode hopen]
    exact of_note hopen hcheck

/-- What is to be changed in the store is entered, also where the store fails. -/
theorem change (h : Settled σ.guard) (g : Guard) {kind : AccessKind} {object : ObjectId}
    (hcheck : r.check? = some ⟨object, kind⟩) (call : StoreCall) {α : Type}
    (outcome : World → Except Fault α) : Enters r σ.guard
      ((do g.checkAccess kind object; Action.call call outcome : Action α).perform σ).2.guard := by
  have hchecked := checkAccess h g hcheck
  rw [Action.perform_bind]
  rcases hcheck : (g.checkAccess kind object).perform σ with ⟨e | u, σ'⟩ <;>
    rw [hcheck] at hchecked <;> exact hchecked

/-- The end of a delay is entered, whatever the checks that it brings come to. -/
theorem checkNow (h : Settled σ.guard) (g : Guard)
    {outcome : Except Fault (Option ObjectId)} :
    Enters ⟨.checkNow, outcome⟩ σ.guard (g.checkNow.perform σ).2.guard := by
  rcases hdepth : σ.guard.delayDepth with _ | _ | depth
  · rw [Guard.perform_checkNow_unmatched g hdepth]
    apply of_unused h
    · rw [hdepth]
      rfl
    · cases outcome <;> rfl
  · rw [Guard.perform_checkNow_outermost g hdepth]
    have hasks := Guard.leaves_enforceAll g σ.guard.pending
      { σ with guard := { σ.guard with delayDepth := 0, pending := [] } }
    rw [hasks.guard]
    exact ⟨rfl, rfl, by simp [hdepth, Served.delaysAfter], by simp⟩
  · rw [Guard.perform_checkNow_inner g hdepth]
    exact ⟨rfl, rfl, by simp [hdepth, Served.delaysAfter], by simp [Served.check?]⟩

end Enters

/-! ## Requests -/

variable {s : SecureSession} {σ : Situation}

/-- A search opens a delay, notes down what it finds and ends the delay, whatever the
store does. -/
theorem perform_find (s : SecureSession) (type : String) (id : Value)
    (hmode : σ.guard.mode = .checking) :
    (s.find type id).perform σ =
      let found := s.store.find σ.world type id
      let pending := match found with
        | .ok (some object) => Guard.note ⟨object, .read⟩ σ.guard.pending
        | _ => σ.guard.pending
      let checked := s.guard.checkNow.perform { σ with
        calls := σ.calls ++ [.find type id]
        guard := { σ.guard with delayDepth := σ.guard.delayDepth + 1, pending } }
      (do let object? ← found; checked.1; return object?, checked.2) := by
  have hnote : ∀ object, (s.guard.checkAccess .read object).perform { σ with
      calls := σ.calls ++ [.find type id]
      guard := { σ.guard with delayDepth := σ.guard.delayDepth + 1 } } = (.ok (), { σ with
        calls := σ.calls ++ [.find type id]
        guard := { σ.guard with
          delayDepth := σ.guard.delayDepth + 1
          pending := Guard.note ⟨object, .read⟩ σ.guard.pending } }) :=
    fun object => Guard.perform_checkAccess_later s.guard hmode (Nat.succ_pos _)
  unfold find
  simp only [Action.perform_bind, Guard.perform_delayChecks, Action.perform_attempt,
    Action.perform_call]
  rcases s.store.find σ.world type id with e | _ | object
  · rfl
  · simp only [Action.perform_pure, Action.perform_ofOutcome]
    rcases s.guard.checkNow.perform _ with ⟨e | u, σ'⟩ <;> rfl
  · simp only [hnote, Action.perform_ofOutcome]
    rcases s.guard.checkNow.perform _ with ⟨e | u, σ'⟩ <;> rfl

/-- While a delay is open an object is found without being checked. -/
theorem perform_find_later (s : SecureSession) (type : String) (id : Value)
    (hmode : σ.guard.mode = .checking) (hdepth : 0 < σ.guard.delayDepth) :
    (s.find type id).perform σ = (s.store.find σ.world type id, { σ with
      calls := σ.calls ++ [.find type id]
      guard := { σ.guard with
        pending := match s.store.find σ.world type id with
          | .ok (some object) => Guard.note ⟨object, .read⟩ σ.guard.pending
          | _ => σ.guard.pending } }) := by
  obtain ⟨depth, hdepth⟩ := Nat.exists_eq_succ_of_ne_zero (Nat.ne_of_gt hdepth)
  rw [perform_find s type id hmode]
  simp only
  rw [Guard.perform_checkNow_inner s.guard (congrArg Nat.succ hdepth)]
  rcases s.store.find σ.world type id with e | object?
  · simp only [hdepth, bind, Except.bind]
  · simp only [hdepth, bind, Except.bind]
    rfl

/-- Without an open delay an object that is found is checked at once. -/
theorem perform_find_now (s : SecureSession) (type : String) (id : Value)
    (hmode : σ.guard.mode = .checking) (hdepth : σ.guard.delayDepth = 0)
    (hpending : σ.guard.pending = []) :
    let asked := { σ with calls := σ.calls ++ [.find type id] }
    (∃ object, s.store.find σ.world type id = .ok (some object) ∧ (s.find type id).perform σ =
      (((s.guard.enforce .read object).perform asked).1.map fun _ => some object,
        ((s.guard.enforce .read object).perform asked).2)) ∨
    ((∀ object, s.store.find σ.world type id ≠ .ok (some object)) ∧
      (s.find type id).perform σ = (s.store.find σ.world type id, asked)) := by
  have hclosed : { σ.guard with delayDepth := 0, pending := [] } = σ.guard := by
    rw [← hdepth, ← hpending]
  rw [perform_find s type id hmode]
  simp only
  rw [Guard.perform_checkNow_outermost s.guard (congrArg Nat.succ hdepth)]
  simp only [hpending, hclosed]
  rcases s.store.find σ.world type id with e | _ | object
  · exact Or.inr ⟨fun object => nofun, rfl⟩
  · exact Or.inr ⟨fun object => nofun, rfl⟩
  · have hnoted : Guard.note ⟨object, .read⟩ [] = [⟨object, .read⟩] := rfl
    refine Or.inl ⟨object, rfl, ?_⟩
    simp only [hnoted, Guard.perform_enforceAll_singleton]
    rcases (s.guard.enforce .read object).perform _ with ⟨e | u, σ'⟩ <;> rfl

/-- An object is reloaded before it is checked. -/
theorem perform_refresh (s : SecureSession) (object : ObjectId) (σ : Situation) :
    (s.refresh object).perform σ =
      let asked := { σ with calls := σ.calls ++ [.refresh object] }
      match s.store.refresh σ.world object with
      | .error e => (.error e, asked)
      | .ok world => (s.guard.checkAccess .read object).perform { asked with world } := by
  unfold refresh
  rw [Action.perform_bind, Action.perform_call]
  rcases s.store.refresh σ.world object with e | world
  · rfl
  · simp only
    rw [Action.perform_bind_of_ok (Action.perform_modify _ _)]

theorem perform_refresh_later (s : SecureSession) (object : ObjectId)
    (hmode : σ.guard.mode = .checking) (hdepth : 0 < σ.guard.delayDepth) :
    (s.refresh object).perform σ =
      let asked := { σ with calls := σ.calls ++ [.refresh object] }
      match s.store.refresh σ.world object with
      | .error e => (.error e, asked)
      | .ok world => (.ok (), { asked with
          world
          guard := { σ.guard with pending := Guard.note ⟨object, .read⟩ σ.guard.pending } }) := by
  rw [perform_refresh]
  rcases s.store.refresh σ.world object with e | world
  · rfl
  · exact Guard.perform_checkAccess_later s.guard hmode hdepth

theorem perform_refresh_now (s : SecureSession) (object : ObjectId)
    (hmode : σ.guard.mode = .checking) (hdepth : σ.guard.delayDepth = 0) :
    (s.refresh object).perform σ =
      let asked := { σ with calls := σ.calls ++ [.refresh object] }
      match s.store.refresh σ.world object with
      | .error e => (.error e, asked)
      | .ok world => (s.guard.enforce .read object).perform { asked with world } := by
  rw [perform_refresh]
  rcases s.store.refresh σ.world object with e | world
  · rfl
  · exact Guard.perform_checkAccess_now s.guard hmode hdepth

/-- What a request leaves of the checks depends on the request and its outcome only. -/
theorem enters_serve (h : Settled σ.guard) {request : SessionRequest}
    {outcome : Except Fault (Option ObjectId)} {σ' : Situation}
    (hserve : (s.serve request).perform σ = (outcome, σ')) :
    Enters ⟨request, outcome⟩ σ.guard σ'.guard := by
  cases request with
  | find type id =>
      rw [serve] at hserve
      rcases Nat.eq_zero_or_pos σ.guard.delayDepth with hidle | hopen
      · rcases perform_find_now s type id h.mode hidle (h.idle hidle) with
          ⟨object, -, hfind⟩ | ⟨-, hfind⟩ <;> rw [hserve] at hfind <;>
          rw [(Prod.mk.inj hfind).2]
        · exact Enters.of_asks (σ := { σ with calls := σ.calls ++ [.find type id] }) h hidle rfl
            (Guard.leaves_enforce s.guard .read object _)
        · exact Enters.of_asks (σ := { σ with calls := σ.calls ++ [.find type id] }) h hidle rfl
            (.refl _)
      · have hfind := perform_find_later s type id h.mode hopen
        rw [hserve] at hfind
        obtain ⟨rfl, rfl⟩ := Prod.mk.inj hfind
        rcases s.store.find σ.world type id with e | _ | object
        · exact .of_unused h rfl rfl
        · exact .of_unused h rfl rfl
        · exact .of_note hopen rfl
  | persist object =>
      rw [serve, Action.perform_bind_pure] at hserve
      obtain ⟨-, rfl⟩ := Prod.mk.inj hserve
      exact .change h s.guard rfl _ _
  | merge object =>
      rw [serve, Action.perform_bind_pure] at hserve
      obtain ⟨-, rfl⟩ := Prod.mk.inj hserve
      exact .change h s.guard rfl _ _
  | remove object =>
      rw [serve, Action.perform_bind_pure] at hserve
      obtain ⟨-, rfl⟩ := Prod.mk.inj hserve
      exact .change h s.guard rfl _ _
  | refresh object =>
      rw [serve, Action.perform_bind_pure] at hserve
      obtain ⟨houtcome, rfl⟩ := Prod.mk.inj hserve
      rcases Nat.eq_zero_or_pos σ.guard.delayDepth with hidle | hopen
      · rw [perform_refresh_now s object h.mode hidle]
        rcases s.store.refresh σ.world object with e | world
        · exact .of_asks (σ := { σ with calls := σ.calls ++ [.refresh object] }) h hidle rfl
            (.refl _)
        · exact .of_asks (σ := { σ with calls := σ.calls ++ [.refresh object], world }) h hidle
            rfl (Guard.leaves_enforce s.guard .read object _)
      · rw [perform_refresh_later s object h.mode hopen] at houtcome ⊢
        rcases hreload : s.store.refresh σ.world object with e | world <;>
          rw [hreload] at houtcome <;> subst houtcome
        · exact .of_unused h rfl rfl
        · exact .of_note hopen rfl
  | delayChecks =>
      obtain ⟨rfl, rfl⟩ := Prod.mk.inj hserve
      exact ⟨rfl, rfl, rfl, by simp [Served.check?]⟩
  | checkNow =>
      rw [serve, Action.perform_bind_pure] at hserve
      obtain ⟨-, rfl⟩ := Prod.mk.inj hserve
      exact .checkNow h s.guard

/-! ## Whole runs -/

/-- The checks are in the state that the history tells. -/
structure Accounts (history : List Served) (state : GuardState) : Prop where
  mode : state.mode = .checking
  ignored : state.ignored = []
  depth : state.delayDepth = openDelays history
  pending : ∀ c, c ∈ state.pending ↔ Waits history c

namespace Accounts

variable {history : List Served} {state state' : GuardState} {r : Served}

theorem idle (h : Accounts history state) (hclosed : openDelays history = 0) :
    state.pending = [] := by
  apply List.eq_nil_iff_forall_not_mem.mpr
  intro c hc
  have hopen := ((h.pending c).mp hc).openDelays_pos
  omega

theorem settled (h : Accounts history state) : Settled state :=
  ⟨h.mode, fun hdepth => h.idle (h.depth ▸ hdepth)⟩

theorem enter (h : Accounts history state) (henters : Enters r state state') :
    Accounts (history ++ [r]) state' where
  mode := henters.mode.trans h.mode
  ignored := henters.ignored.trans h.ignored
  depth := by rw [henters.depth, h.depth, openDelays_concat]
  pending c := by
    rw [henters.pending, henters.depth, h.depth, h.pending, waits_concat, openDelays_concat]

end Accounts

theorem Run.accounts {history : List Served} (h : s.Run history σ) :
    Accounts history σ.guard := by
  induction h with
  | start σ hfresh =>
      rw [hfresh]
      exact ⟨rfl, rfl, rfl, fun c => by simp [not_waits_nil]⟩
  | step e request _ hserve ih =>
      exact ih.enter (enters_serve (σ := Situation.amid _ e) ih.settled hserve)

/-! ## What is decided at once -/

/-- Every change that reaches the store on the way from one situation to another is the last
call on this way, and before it the guard has decided that the object can be used so. -/
def ChangesPermitted (g : Guard) (σ σ' : Situation) : Prop :=
  ∃ calls, σ'.calls = σ.calls ++ calls ∧ ∀ call ∈ calls, ∀ c, call.change? = some c →
    ∃ between, g.Permits c σ between ∧ σ'.calls = between.calls ++ [call]

/-- Nothing else than a change needs to be permitted. -/
theorem ChangesPermitted.of_calls {g : Guard} {σ' : Situation} (calls : List StoreCall)
    (hcalls : ∀ call ∈ calls, call.change? = none)
    (hafter : ∃ queries : List StoreQuery,
      σ'.calls = σ.calls ++ calls ++ queries.map StoreCall.query) :
    ChangesPermitted g σ σ' := by
  obtain ⟨queries, hqueries⟩ := hafter
  refine ⟨calls ++ queries.map StoreCall.query, ?_, fun call hcall c hchange => ?_⟩
  · rw [hqueries, List.append_assoc]
  · rcases List.mem_append.mp hcall with hcall | hcall
    · rw [hcalls call hcall] at hchange
      cases hchange
    · obtain ⟨query, -, rfl⟩ := List.mem_map.mp hcall
      cases hchange

/-- Without an open delay a change waits for the decision. -/
theorem changesPermitted_change (h : Settled σ.guard) (hdepth : σ.guard.delayDepth = 0)
    (g : Guard) {kind : AccessKind} {object : ObjectId} {call : StoreCall}
    (hcall : call.change? = some ⟨object, kind⟩) {α : Type} (outcome : World → Except Fault α) :
    ChangesPermitted g σ
      ((do g.checkAccess kind object; Action.call call outcome : Action α).perform σ).2 := by
  have hasks := Guard.leaves_enforce g kind object σ
  rw [Action.perform_bind, Guard.perform_checkAccess_now g h.mode hdepth]
  rcases hcheck : (g.enforce kind object).perform σ with ⟨e | u, between⟩ <;> rw [hcheck] at hasks
  · apply ChangesPermitted.of_calls [] (by simp)
    rw [List.append_nil]
    exact hasks.calls
  · obtain ⟨queries, hqueries⟩ := hasks.calls
    refine ⟨queries.map StoreCall.query ++ [call], ?_, fun last hlast c hchange => ?_⟩
    · rw [← List.append_assoc, ← hqueries]
      rfl
    · rcases List.mem_append.mp hlast with hlast | hlast
      · obtain ⟨query, -, rfl⟩ := List.mem_map.mp hlast
        cases hchange
      · obtain rfl := List.mem_singleton.mp hlast
        obtain rfl := Option.some.inj (hcall.symm.trans hchange)
        exact ⟨between, Guard.permits_of_enforce hcheck, rfl⟩

/-- Without an open delay nothing is changed that the guard has not permitted. -/
theorem changesPermitted_serve (h : Settled σ.guard) (hdepth : σ.guard.delayDepth = 0)
    {request : SessionRequest} {outcome : Except Fault (Option ObjectId)} {σ' : Situation}
    (hserve : (s.serve request).perform σ = (outcome, σ')) :
    ChangesPermitted s.guard σ σ' := by
  cases request with
  | find type id =>
      rw [serve] at hserve
      rcases perform_find_now s type id h.mode hdepth (h.idle hdepth) with
        ⟨object, -, hfind⟩ | ⟨-, hfind⟩ <;> rw [hserve] at hfind <;>
        rw [(Prod.mk.inj hfind).2] <;>
        apply ChangesPermitted.of_calls [.find type id] (by simp [StoreCall.change?])
      · exact (Guard.leaves_enforce s.guard .read object _).calls
      · exact ⟨[], by simp⟩
  | persist object =>
      rw [serve, Action.perform_bind_pure] at hserve
      obtain ⟨-, rfl⟩ := Prod.mk.inj hserve
      exact changesPermitted_change h hdepth s.guard rfl _
  | merge object =>
      rw [serve, Action.perform_bind_pure] at hserve
      obtain ⟨-, rfl⟩ := Prod.mk.inj hserve
      exact changesPermitted_change h hdepth s.guard rfl _
  | remove object =>
      rw [serve, Action.perform_bind_pure] at hserve
      obtain ⟨-, rfl⟩ := Prod.mk.inj hserve
      exact changesPermitted_change h hdepth s.guard rfl _
  | refresh object =>
      rw [serve, Action.perform_bind_pure] at hserve
      obtain ⟨-, rfl⟩ := Prod.mk.inj hserve
      rw [perform_refresh_now s object h.mode hdepth]
      apply ChangesPermitted.of_calls [.refresh object] (by simp [StoreCall.change?])
      rcases s.store.refresh σ.world object with e | world
      · exact ⟨[], by simp⟩
      · exact (Guard.leaves_enforce s.guard .read object _).calls
  | delayChecks =>
      obtain ⟨rfl, rfl⟩ := Prod.mk.inj hserve
      exact ⟨[], by simp, by simp⟩
  | checkNow =>
      rw [serve, Action.perform_bind_pure, Guard.perform_checkNow_unmatched s.guard hdepth]
        at hserve
      obtain ⟨-, rfl⟩ := Prod.mk.inj hserve
      exact ⟨[], by simp, by simp⟩

/-- Without an open delay no object is found that the guard has not permitted to read. -/
theorem permits_of_find (h : Settled σ.guard) (hdepth : σ.guard.delayDepth = 0) {type : String}
    {id : Value} {object : ObjectId} {σ' : Situation}
    (hserve : (s.serve (.find type id)).perform σ = (.ok (some object), σ')) :
    s.guard.Permits ⟨object, .read⟩ { σ with calls := σ.calls ++ [.find type id] } σ' := by
  rw [serve] at hserve
  rcases perform_find_now s type id h.mode hdepth (h.idle hdepth) with
    ⟨found, -, hfind⟩ | ⟨hnone, hfind⟩ <;> rw [hserve] at hfind <;>
    obtain ⟨houtcome, hafter⟩ := Prod.mk.inj hfind
  · rcases hcheck : (s.guard.enforce .read found).perform
      { σ with calls := σ.calls ++ [.find type id] } with ⟨e | u, after⟩ <;>
      rw [hcheck] at houtcome hafter <;> cases houtcome
    rw [hafter]
    exact Guard.permits_of_enforce hcheck
  · exact absurd houtcome.symm (hnone object)

/-- Without an open delay no object is reloaded that is not readable afterwards. -/
theorem permits_of_refresh (h : Settled σ.guard) (hdepth : σ.guard.delayDepth = 0)
    {object : ObjectId} {none? : Option ObjectId} {σ' : Situation}
    (hserve : (s.serve (.refresh object)).perform σ = (.ok none?, σ')) :
    ∃ world, s.store.refresh σ.world object = .ok world ∧ s.guard.Permits ⟨object, .read⟩
      { σ with calls := σ.calls ++ [.refresh object], world } σ' := by
  rw [serve, Action.perform_bind_pure, perform_refresh_now s object h.mode hdepth] at hserve
  obtain ⟨houtcome, hafter⟩ := Prod.mk.inj hserve
  rcases hreload : s.store.refresh σ.world object with e | world <;>
    simp only [hreload] at houtcome hafter
  · cases houtcome
  · rcases hcheck : (s.guard.enforce .read object).perform
      { σ with calls := σ.calls ++ [.refresh object], world } with ⟨e | u, after⟩ <;>
      rw [hcheck] at houtcome hafter
    · cases houtcome
    · exact ⟨world, rfl, hafter ▸ Guard.permits_of_enforce hcheck⟩

/-! ## No object escapes -/

/-- What a session keeps to after a history, whatever happens around it next. -/
structure Guarded (s : SecureSession) (history : List Served) (σ : Situation) : Prop where
  depth : σ.guard.delayDepth = openDelays history
  idle : openDelays history = 0 → σ.guard.pending = []
  waiting : ∀ c, c ∈ σ.guard.pending ↔ Waits history c
  /-- Without an open delay a change that is not permitted does not reach the store. -/
  changes : openDelays history = 0 → ∀ e request outcome σ',
    ((s.withStore e.store).serve request).perform (σ.amid e) = (outcome, σ') →
      ChangesPermitted (s.withStore e.store).guard (σ.amid e) σ'
  /-- Without an open delay an object that is not readable is not found. -/
  found : openDelays history = 0 → ∀ e type id object σ',
    ((s.withStore e.store).serve (.find type id)).perform (σ.amid e) = (.ok (some object), σ') →
      (s.withStore e.store).guard.Permits ⟨object, .read⟩
        { σ.amid e with calls := σ.calls ++ [.find type id] } σ'
  /-- Without an open delay reloading fails for an object that is not readable then. -/
  reloaded : openDelays history = 0 → ∀ e object none? σ',
    ((s.withStore e.store).serve (.refresh object)).perform (σ.amid e) = (.ok none?, σ') →
      ∃ world, e.store.refresh e.world object = .ok world ∧
        (s.withStore e.store).guard.Permits ⟨object, .read⟩
          { σ.amid e with calls := σ.calls ++ [.refresh object], world } σ'
  /-- The end of the last delay succeeds only if all that waits is permitted. -/
  released : openDelays history = 1 → ∀ e none? σ',
    ((s.withStore e.store).serve .checkNow).perform (σ.amid e) = (.ok none?, σ') →
      (s.withStore e.store).guard.PermitsAll σ.guard.pending
        { σ.amid e with guard := { σ.guard with delayDepth := 0, pending := [] } } σ'

theorem permitsAll_of_checkNow (hdepth : σ.guard.delayDepth = 1) {none? : Option ObjectId}
    {σ' : Situation} (hserve : (s.serve .checkNow).perform σ = (.ok none?, σ')) :
    s.guard.PermitsAll σ.guard.pending
      { σ with guard := { σ.guard with delayDepth := 0, pending := [] } } σ' := by
  rw [serve, Action.perform_bind_pure, Guard.perform_checkNow_outermost s.guard hdepth] at hserve
  rcases hall : (s.guard.enforceAll σ.guard.pending).perform
    { σ with guard := { σ.guard with delayDepth := 0, pending := [] } } with ⟨e | u, after⟩ <;>
    rw [hall] at hserve <;> obtain ⟨houtcome, rfl⟩ := Prod.mk.inj hserve
  · cases houtcome
  · exact Guard.permitsAll_of_enforceAll hall

/-- No object escapes its check: not by a request that fails in its middle, and not by the
delays that are open or that a search opens itself. -/
theorem Run.guarded {history : List Served} (h : s.Run history σ) : s.Guarded history σ where
  depth := h.accounts.depth
  idle := h.accounts.idle
  waiting := h.accounts.pending
  changes hclosed e _ _ _ hserve :=
    changesPermitted_serve (σ := σ.amid e) h.accounts.settled
      (h.accounts.depth.trans hclosed) hserve
  found hclosed e _ _ _ _ hserve :=
    permits_of_find (σ := σ.amid e) h.accounts.settled (h.accounts.depth.trans hclosed) hserve
  reloaded hclosed e _ _ _ hserve :=
    permits_of_refresh (σ := σ.amid e) h.accounts.settled (h.accounts.depth.trans hclosed) hserve
  released hopen e _ _ hserve :=
    permitsAll_of_checkNow (σ := σ.amid e) (h.accounts.depth.trans hopen) hserve

/-- What a clerk works with: a document, and a store that takes no documents in. -/
def clerkSurroundings : Surroundings where
  store := ({ failing := [.persist] } : StoreScript).store
  world := ⟨[⟨"Document", none, []⟩]⟩
  current? := none

def clerkSession (policy : Policy) : SecureSession where
  guard := {
    mapping := { classes := [{ name := "Document" }] }, policy, strategies := [.simple]
    provider := .current, remembersReads := true, now := default
    store? := some clerkSurroundings.store }
  store := clerkSurroundings.store

/-- Where a document was to be taken in while a delay was open. -/
def clerkSituation : Situation where
  world := clerkSurroundings.world
  calls := [.persist 0]
  guard := { delayDepth := 1, pending := [⟨0, .create⟩] }

/-- A document that the store did not take in must be creatable all the same when the delay
ends. -/
theorem Run.guarded_clerk :
    ∃ policy σ', Policy.ofTexts (clerkSession {}).guard.mapping
        ["GRANT CREATE ACCESS TO Document d"] = .ok policy ∧
      (clerkSession policy).Run [⟨.delayChecks, .ok none⟩,
        ⟨.persist 0, .error (.session "persist failed")⟩] clerkSituation ∧
      (clerkSession policy).guard.PermitsAll [⟨0, .create⟩]
        { clerkSituation with guard := {} } σ' := by
  have hfound : (Policy.ofTexts (clerkSession {}).guard.mapping
      ["GRANT CREATE ACCESS TO Document d"]).toOption.any fun policy =>
        (((clerkSession policy).serve .checkNow).perform clerkSituation).1.toOption.any
          (· = none) := by
    decide +kernel
  obtain ⟨policy, hpolicy, hfound⟩ := Query.Scope.ok_of_any hfound
  obtain ⟨none?, hserve, -⟩ := Query.Scope.ok_of_any hfound
  have hrun : (clerkSession policy).Run [⟨.delayChecks, .ok none⟩,
      ⟨.persist 0, .error (.session "persist failed")⟩] clerkSituation :=
    .step clerkSurroundings (.persist 0) (.step clerkSurroundings .delayChecks
      (.start ⟨clerkSurroundings.world, [], {}, [], none, {}⟩ rfl) rfl) rfl
  exact ⟨policy, _, hpolicy, hrun,
    hrun.guarded.released rfl clerkSurroundings none? _ (Prod.ext hserve rfl)⟩

end SecureSession

end RowGuard
