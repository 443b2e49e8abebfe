import RowGuard.Proofs.Checks

/-!
# Remembered answers

A guard that remembers answers about reading gives the answers of one that does
not, as long as the objects, their identities and the user stay the same.  Both go
through the same states but for what is remembered, and all that is remembered is
what the rules answer for some object.  The identity that the answer is found by
leads back to that object, so a remembered answer is the one that asking would give.
-/

namespace RowGuard

open Query (AccessKind)

/-! ## Two actions in step -/

/-- From related situations both actions come to one outcome and to related situations. -/
def Action.InStep {α : Type} (R : Situation → Situation → Prop) (x y : Action α) : Prop :=
  ∀ σ σ', R σ σ' → (x.perform σ).1 = (y.perform σ').1 ∧ R (x.perform σ).2 (y.perform σ').2

namespace Action.InStep

variable {α β : Type} {R : Situation → Situation → Prop} {x y : Action α} {f g : α → Action β}

theorem pure (a : α) : InStep R (pure a) (pure a) := fun _ _ h => ⟨rfl, h⟩

theorem throw (e : Fault) : InStep R (throw e : Action α) (throw e) := fun _ _ h => ⟨rfl, h⟩

theorem attempt (h : InStep R x y) : InStep R (attempt x) (attempt y) :=
  fun σ σ' hσ => ⟨congrArg Except.ok (h σ σ' hσ).1, (h σ σ' hσ).2⟩

theorem bind (hx : InStep R x y) (hf : ∀ a, InStep R (f a) (g a)) :
    InStep R (x >>= f) (y >>= g) := by
  intro σ σ' hσ
  obtain ⟨houtcome, hafter⟩ := hx σ σ' hσ
  rw [perform_bind, perform_bind]
  rcases hx : x.perform σ with ⟨e | a, τ⟩ <;> rcases hy : y.perform σ' with ⟨e' | a', τ'⟩ <;>
    rw [hx, hy] at houtcome hafter <;> cases houtcome
  · exact ⟨rfl, hafter⟩
  · exact hf a τ τ' hafter

/-- Actions that read the situation first are in step if what they go on to is. -/
theorem get {f g : Situation → Action β} (h : ∀ σ σ', R σ σ' → InStep R (f σ) (g σ')) :
    InStep R (get >>= f) (get >>= g) := by
  intro σ σ' hσ
  rw [perform_bind_of_ok (perform_get σ), perform_bind_of_ok (perform_get σ')]
  exact h σ σ' hσ σ σ' hσ

end Action.InStep

/-! ## Requests -/

inductive GuardRequest where
  | isAccessible (kind : AccessKind) (object : ObjectId)
  | checkAccess (kind : AccessKind) (object : ObjectId)
  | delayChecks
  | checkNow
  | enableChecks
  | disableChecks
  | ignoreChecks (kind : AccessKind) (objects : List ObjectId)
  | filterReadable (objects : List ObjectId)
  | forget

inductive GuardReply where
  | done
  | accessible (answer : Bool)
  | readable (objects : List ObjectId)

/-- An identity that is not null belongs to one object of a type. -/
def Mapping.Identifies (m : Mapping) (w : World) : Prop :=
  ∀ a b x y, w.typeOf a = w.typeOf b → m.idOf w a = some x → m.idOf w b = some y →
    w.same x y → a = b

namespace Guard

/-- The guard, remembering answers about reading or not. -/
def remembering (g : Guard) (remembers : Bool) : Guard := { g with remembersReads := remembers }

def reply (g : Guard) : GuardRequest → Action GuardReply
  | .isAccessible kind object => do return .accessible (← g.isAccessible kind object)
  | .checkAccess kind object => do g.checkAccess kind object; return .done
  | .delayChecks => do delayChecks; return .done
  | .checkNow => do g.checkNow; return .done
  | .enableChecks => do setMode .checking; return .done
  | .disableChecks => do setMode .disabled; return .done
  | .ignoreChecks kind objects => do ignoreChecks kind objects; return .done
  | .filterReadable objects => do return .readable (← g.filterReadable objects)
  | .forget => do forget; return .done

/-- What a guard comes to for some requests in their order; one that fails does not keep
the others from being served. -/
def replies (g : Guard) : List GuardRequest → Situation → List (Except Fault GuardReply)
  | [], _ => []
  | request :: requests, σ =>
      let served := (g.reply request).perform σ
      served.1 :: g.replies requests served.2

/-! ## What is remembered is true -/

/-- The situations of two guards that differ in what they remember only; what the first
remembers is what the rules answer. -/
structure Agrees (g : Guard) (w : World) (current? : Option SecurityContext)
    (σ σ' : Situation) : Prop where
  world : σ.world = w
  world' : σ'.world = w
  current : σ.current? = current?
  current' : σ'.current? = current?
  guard : { σ'.guard with remembered := [] } = { σ.guard with remembered := [] }
  truthful : ∀ r ∈ σ.guard.remembered, ∃ object, w.typeOf object = r.type ∧
    g.mapping.idOf w object = some r.id ∧ g.answer w current? .read object = .ok r.readable

variable {g : Guard} {w : World} {current? : Option SecurityContext} {kind : AccessKind}
  {object : ObjectId} {σ σ' : Situation}

@[simp]
theorem memoryKey?_forgetful (g : Guard) :
    (g.remembering false).memoryKey? w kind object = none := by
  simp [memoryKey?, remembering]

theorem idOf_of_memoryKey? {id : Value} (h : g.memoryKey? w kind object = some id) :
    g.mapping.idOf w object = some id := by
  unfold memoryKey? at h
  split at h
  · exact h
  · cases h

namespace Agrees

theorem mode (h : Agrees g w current? σ σ') : σ'.guard.mode = σ.guard.mode :=
  (congrArg GuardState.mode h.guard :)

theorem ignored (h : Agrees g w current? σ σ') : σ'.guard.ignored = σ.guard.ignored :=
  (congrArg GuardState.ignored h.guard :)

theorem delayDepth (h : Agrees g w current? σ σ') :
    σ'.guard.delayDepth = σ.guard.delayDepth :=
  (congrArg GuardState.delayDepth h.guard :)

theorem pending (h : Agrees g w current? σ σ') : σ'.guard.pending = σ.guard.pending :=
  (congrArg GuardState.pending h.guard :)

theorem isExempt_iff (h : Agrees g w current? σ σ') (check : Check) :
    IsExempt σ'.guard check ↔ IsExempt σ.guard check := by
  rw [IsExempt, IsExempt, h.mode, h.ignored]

/-- An answer that is found is the answer that the rules give. -/
theorem answer_of_known (h : Agrees g w current? σ σ') (hidentifies : g.mapping.Identifies w)
    {id : Value} {known : Bool} (hid : g.mapping.idOf w object = some id)
    (hknown : knownAnswer? w σ.guard.remembered (w.typeOf object) id = some known) :
    g.answer w current? .read object = .ok known := by
  obtain ⟨r, hfind, rfl⟩ := Option.map_eq_some_iff.mp hknown
  obtain ⟨htype, hsame⟩ : r.type = w.typeOf object ∧ w.same r.id id := by
    simpa using List.find?_some hfind
  obtain ⟨other, hother, hotherId, hanswer⟩ := h.truthful r (List.mem_of_find?_eq_some hfind)
  obtain rfl : other = object :=
    hidentifies other object r.id id (hother.trans htype) hotherId hid hsame
  exact hanswer

/-- A change that does not look at what is remembered keeps guards in step. -/
theorem inStep_changeGuard {f : GuardState → GuardState}
    (hf : ∀ state, { f state with remembered := [] } = f { state with remembered := [] })
    (hremembered : ∀ state, (f state).remembered ⊆ state.remembered) :
    Action.InStep (Agrees g w current?) (Action.changeGuard f) (Action.changeGuard f) :=
  fun σ σ' h => ⟨rfl, {
    world := h.world, world' := h.world', current := h.current, current' := h.current'
    guard := by
      simp only [Action.perform_changeGuard]
      rw [hf, hf, h.guard]
    truthful := fun r hr => h.truthful r (hremembered σ.guard hr) }⟩

/-- Counters and the log of the calls do not matter. -/
theorem keep (h : Agrees g w current? σ σ') {statistics statistics' : Statistics}
    {calls calls' : List StoreCall} : Agrees g w current?
      { σ with statistics, calls } { σ' with statistics := statistics', calls := calls' } :=
  ⟨h.world, h.world', h.current, h.current', h.guard, h.truthful⟩

theorem remember (h : Agrees g w current? σ σ') {id : Value} {found : Bool}
    (hid : g.mapping.idOf w object = some id)
    (hanswer : g.answer w current? .read object = .ok found)
    {statistics statistics' : Statistics} {calls calls' : List StoreCall} : Agrees g w current?
      { σ with
        statistics, calls
        guard := { σ.guard with
          remembered := ⟨w.typeOf object, id, found⟩ :: σ.guard.remembered } }
      { σ' with statistics := statistics', calls := calls' } where
  world := h.world
  world' := h.world'
  current := h.current
  current' := h.current'
  guard := h.guard
  truthful r hr := by
    rcases List.mem_cons.mp hr with rfl | hr
    · exact ⟨object, rfl, hid, hanswer⟩
    · exact h.truthful r hr

/-- The answers about an object are the same, and what is remembered of them is true. -/
theorem inStep_isAccessible (hidentifies : g.mapping.Identifies w) (kind : AccessKind)
    (object : ObjectId) : Action.InStep (Agrees g w current?)
      ((g.remembering true).isAccessible kind object)
      ((g.remembering false).isAccessible kind object) := by
  intro σ σ' h
  by_cases hexempt : IsExempt σ.guard ⟨object, kind⟩
  · rw [perform_isAccessible_exempt hexempt,
      perform_isAccessible_exempt ((h.isExempt_iff _).mpr hexempt)]
    exact ⟨rfl, h⟩
  -- The forgetful guard asks every time, so the other one's answer is the point.
  obtain ⟨statistics, queries, hasked⟩ := perform_isAccessible_asked
    (g := g.remembering false) (mt (h.isExempt_iff _).mp hexempt) (memoryKey?_forgetful g)
  have hanswer' : (g.remembering false).answer σ'.world σ'.current? kind object =
      g.answer w current? kind object := by
    rw [h.world', h.current']
    rfl
  rw [hasked, hanswer']
  have hanswers := answers_isAccessible (g.remembering true) kind object σ
  generalize ((g.remembering true).isAccessible kind object).perform σ = served at hanswers ⊢
  obtain ⟨outcome, τ⟩ := served
  obtain rfl := h.world
  obtain rfl := h.current
  cases hanswers with
  | exempt hexempt' => exact absurd hexempt' hexempt
  | recalled _ _ hkey hknown =>
      obtain rfl := eq_read_of_memoryKey? hkey
      have hid := idOf_of_memoryKey? (g := g.remembering true) hkey
      exact ⟨(h.answer_of_known hidentifies hid hknown).symm, h.keep⟩
  | asked => exact ⟨rfl, h.keep⟩
  | remembered _ _ _ hkey _ hanswer =>
      obtain rfl := eq_read_of_memoryKey? hkey
      have hid := idOf_of_memoryKey? (g := g.remembering true) hkey
      exact ⟨hanswer.symm, h.remember hid hanswer⟩
  | failed _ _ _ hkey _ hanswer =>
      obtain rfl := eq_read_of_memoryKey? hkey
      exact ⟨hanswer.symm, h.keep⟩

/-- Enforcing looks at the objects and at the answer only. -/
theorem inStep_enforce (hidentifies : g.mapping.Identifies w) (kind : AccessKind)
    (object : ObjectId) : Action.InStep (Agrees g w current?)
      ((g.remembering true).enforce kind object) ((g.remembering false).enforce kind object) := by
  unfold enforce
  apply Action.InStep.get
  intro σ σ' h
  rw [h.world, h.world']
  apply Action.InStep.bind (Action.InStep.attempt (inStep_isAccessible hidentifies kind object))
  rintro (f | _ | _)
  · simp only
    split
    · exact .throw f
    · exact .throw _
  · exact .throw _
  · exact .pure ()

theorem inStep_enforceAll (hidentifies : g.mapping.Identifies w) (cs : List Check) :
    Action.InStep (Agrees g w current?)
      ((g.remembering true).enforceAll cs) ((g.remembering false).enforceAll cs) := by
  induction cs with
  | nil => exact .pure ()
  | cons c cs ih => exact .bind (inStep_enforce hidentifies c.kind c.object) fun _ => ih

theorem inStep_checkAccess (hidentifies : g.mapping.Identifies w) (kind : AccessKind)
    (object : ObjectId) : Action.InStep (Agrees g w current?)
      ((g.remembering true).checkAccess kind object)
      ((g.remembering false).checkAccess kind object) := by
  unfold checkAccess
  apply Action.InStep.get
  intro σ σ' h
  simp only [h.mode, h.delayDepth]
  split
  · exact .pure ()
  · split
    · exact inStep_changeGuard (fun _ => rfl) fun _ => List.Subset.refl _
    · exact inStep_enforce hidentifies kind object

theorem inStep_checkNow (hidentifies : g.mapping.Identifies w) :
    Action.InStep (Agrees g w current?)
      (g.remembering true).checkNow (g.remembering false).checkNow := by
  unfold checkNow
  apply Action.InStep.get
  intro σ σ' h
  simp only [h.delayDepth, h.pending]
  split
  · exact .throw _
  · exact .bind (inStep_changeGuard (fun _ => rfl) fun _ => List.Subset.refl _)
      fun _ => inStep_enforceAll hidentifies σ.guard.pending
  · exact inStep_changeGuard (fun _ => rfl) fun _ => List.Subset.refl _

theorem inStep_filterReadable (hidentifies : g.mapping.Identifies w) (os : List ObjectId) :
    Action.InStep (Agrees g w current?)
      ((g.remembering true).filterReadable os) ((g.remembering false).filterReadable os) := by
  induction os with
  | nil => exact .pure []
  | cons o os ih =>
      exact .bind (inStep_isAccessible hidentifies .read o) fun _ => .bind ih fun _ => .pure _

/-- Every request is answered alike. -/
theorem inStep_reply (hidentifies : g.mapping.Identifies w) (request : GuardRequest) :
    Action.InStep (Agrees g w current?)
      ((g.remembering true).reply request) ((g.remembering false).reply request) := by
  cases request with
  | isAccessible kind object =>
      exact .bind (inStep_isAccessible hidentifies kind object) fun _ => .pure _
  | checkAccess kind object =>
      exact .bind (inStep_checkAccess hidentifies kind object) fun _ => .pure _
  | delayChecks =>
      exact .bind (inStep_changeGuard (fun _ => rfl) fun _ => List.Subset.refl _) fun _ => .pure _
  | checkNow => exact .bind (inStep_checkNow hidentifies) fun _ => .pure _
  | enableChecks =>
      exact .bind (inStep_changeGuard (fun _ => rfl) fun _ => List.Subset.refl _) fun _ => .pure _
  | disableChecks =>
      exact .bind (inStep_changeGuard (fun _ => rfl) fun _ => List.Subset.refl _) fun _ => .pure _
  | ignoreChecks kind objects =>
      exact .bind (inStep_changeGuard (fun _ => rfl) fun _ => List.Subset.refl _) fun _ => .pure _
  | filterReadable objects =>
      exact .bind (inStep_filterReadable hidentifies objects) fun _ => .pure _
  | forget =>
      exact .bind (inStep_changeGuard (fun _ => rfl) fun _ => List.nil_subset _) fun _ => .pure _

/-- Guards in step stay in step over any number of requests. -/
theorem replies_eq (hidentifies : g.mapping.Identifies w) (h : Agrees g w current? σ σ')
    (requests : List GuardRequest) :
    (g.remembering true).replies requests σ = (g.remembering false).replies requests σ' := by
  induction requests generalizing σ σ' with
  | nil => rfl
  | cons request requests ih =>
      obtain ⟨houtcome, hafter⟩ := inStep_reply hidentifies request σ σ' h
      simp only [replies]
      rw [houtcome, ih hafter]

end Agrees

/-- Two documents, told apart by their numbers. -/
def archiveWorld : World :=
  ⟨[⟨"Document", some "id", [("id", .integer 1)]⟩, ⟨"Document", some "id", [("id", .integer 2)]⟩]⟩

def archiveGuard : Guard where
  mapping := { classes := [{ name := "Document", idProperty? := some "id" }] }
  policy := {}
  strategies := [.simple]
  provider := .current
  remembersReads := true
  now := default
  store? := none

theorem idOf_archive {a : ObjectId} {x : Value}
    (h : archiveGuard.mapping.idOf archiveWorld a = some x) :
    a = 0 ∧ x = .integer 1 ∨ a = 1 ∧ x = .integer 2 := by
  have hproperty : archiveGuard.mapping.idProperty? "Document" = some "id" := by
    decide +kernel
  have hnone : archiveGuard.mapping.idProperty? "" = none := by
    decide +kernel
  rcases a with _ | _ | a
  · have hid : archiveGuard.mapping.idOf archiveWorld 0 = some (.integer 1) := by
      rw [Mapping.idOf, show archiveWorld.typeOf 0 = "Document" from rfl, hproperty]
      rfl
    simp_all
  · have hid : archiveGuard.mapping.idOf archiveWorld 1 = some (.integer 2) := by
      rw [Mapping.idOf, show archiveWorld.typeOf 1 = "Document" from rfl, hproperty]
      rfl
    simp_all
  · have hid : archiveGuard.mapping.idOf archiveWorld (a + 2) = none := by
      rw [Mapping.idOf, show archiveWorld.typeOf (a + 2) = "" from rfl, hnone]
      rfl
    simp_all

theorem identifies_archive : archiveGuard.mapping.Identifies archiveWorld := by
  intro a b x y _ ha hb hsame
  rcases idOf_archive ha with ⟨rfl, rfl⟩ | ⟨rfl, rfl⟩ <;>
    rcases idOf_archive hb with ⟨rfl, rfl⟩ | ⟨rfl, rfl⟩
  · rfl
  · exact absurd hsame (by decide +kernel)
  · exact absurd hsame (by decide +kernel)
  · rfl

end Guard

end RowGuard
