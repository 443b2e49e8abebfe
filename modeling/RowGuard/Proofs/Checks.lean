import RowGuard.Guard.Checks
import RowGuard.Proofs.Actions

/-!
# What checks come to

Asking the rules leaves the state of the checks as it is: only counters, the log
of the queries to the store and the remembered answers change.  So a check that is
made comes to what the guard decides in the situation it is made in, a check that
is delayed is noted and nothing else, and the end of the last delay succeeds
exactly if every check that was noted down is granted in its turn.
-/

namespace RowGuard

open Query (AccessKind)

/-! ## Asking -/

/-- What asking the rules may change. -/
structure Situation.Asks (σ σ' : Situation) : Prop where
  world : σ'.world = σ.world
  current : σ'.current? = σ.current?
  guard : σ'.guard = { σ.guard with remembered := σ'.guard.remembered }
  calls : ∃ queries : List StoreQuery, σ'.calls = σ.calls ++ queries.map StoreCall.query

namespace Situation.Asks

variable {σ σ' σ'' : Situation}

theorem of_eq {guard : GuardState} {statistics : Statistics} {calls : List StoreCall}
    (hguard : guard = { σ.guard with remembered := guard.remembered })
    (hcalls : ∃ queries : List StoreQuery, calls = σ.calls ++ queries.map StoreCall.query) :
    σ.Asks { σ with guard, statistics, calls } :=
  ⟨rfl, rfl, hguard, hcalls⟩

theorem refl (σ : Situation) : σ.Asks σ := ⟨rfl, rfl, rfl, [], by simp⟩

theorem trans (h : σ.Asks σ') (h' : σ'.Asks σ'') : σ.Asks σ'' where
  world := h'.world.trans h.world
  current := h'.current.trans h.current
  guard := by rw [h'.guard, h.guard]
  calls := by
    obtain ⟨queries, hqueries⟩ := h.calls
    obtain ⟨more, hmore⟩ := h'.calls
    exact ⟨queries ++ more, by rw [hmore, hqueries, List.map_append, List.append_assoc]⟩

end Situation.Asks

/-- Who is asking, where the situation has the current user. -/
def ContextProvider.contextFor (p : ContextProvider) (current? : Option SecurityContext) :
    Except Fault SecurityContext :=
  match p with
  | .fixed c => .ok c
  | .current => .ok (current?.getD .anonymous)
  | .failing f => .error f

@[simp]
theorem ContextProvider.perform_context (p : ContextProvider) (σ : Situation) :
    p.context.perform σ = (p.contextFor σ.current?, σ) := by
  cases p <;> rfl

namespace Guard

variable {g : Guard} {kind : AccessKind} {object : ObjectId} {σ σ' : Situation}

/-- What the rules answer the current user, if the user is known. -/
def answer (g : Guard) (w : World) (current? : Option SecurityContext) (kind : AccessKind)
    (object : ObjectId) : Except Fault Bool := do
  let c ← g.provider.contextFor current?
  (g.decision w kind object c).outcome

theorem perform_ask (g : Guard) (kind : AccessKind) (object : ObjectId) (σ : Situation) :
    ∃ (statistics : Statistics) (queries : List StoreQuery), (g.ask kind object).perform σ =
      (g.answer σ.world σ.current? kind object,
        { σ with statistics, calls := σ.calls ++ queries.map StoreCall.query }) := by
  unfold ask answer
  rw [Action.perform_bind, ContextProvider.perform_context]
  cases g.provider.contextFor σ.current? with
  | error e => exact ⟨σ.statistics, [], by simp [bind, Except.bind]⟩
  | ok c => exact ⟨_, (g.decision σ.world kind object c).queries, rfl⟩

/-- Whether a check is not made at all. -/
def IsExempt (state : GuardState) (check : Check) : Prop :=
  state.mode = .disabled ∨ state.ignored.contains check

/-- All that asking whether an object can be used comes to: a check that is not made, an
answer that is remembered, one that the rules give and that is not to be remembered, one
that is remembered from now on, and a failure, which is never remembered. -/
inductive Answers (g : Guard) (kind : AccessKind) (object : ObjectId) (σ : Situation) :
    Except Fault Bool → Situation → Prop
  | exempt : IsExempt σ.guard ⟨object, kind⟩ → Answers g kind object σ (.ok true) σ
  | recalled {id : Value} {known : Bool} (statistics : Statistics) :
      ¬ IsExempt σ.guard ⟨object, kind⟩ → g.memoryKey? σ.world kind object = some id →
      knownAnswer? σ.world σ.guard.remembered (σ.world.typeOf object) id = some known →
      Answers g kind object σ (.ok known) { σ with statistics }
  | asked (statistics : Statistics) (queries : List StoreQuery) :
      ¬ IsExempt σ.guard ⟨object, kind⟩ → g.memoryKey? σ.world kind object = none →
      Answers g kind object σ (g.answer σ.world σ.current? kind object)
        { σ with statistics, calls := σ.calls ++ queries.map StoreCall.query }
  | remembered {id : Value} {found : Bool} (statistics : Statistics) (queries : List StoreQuery) :
      ¬ IsExempt σ.guard ⟨object, kind⟩ → g.memoryKey? σ.world kind object = some id →
      knownAnswer? σ.world σ.guard.remembered (σ.world.typeOf object) id = none →
      g.answer σ.world σ.current? kind object = .ok found →
      Answers g kind object σ (.ok found)
        { σ with
          statistics, calls := σ.calls ++ queries.map StoreCall.query
          guard := { σ.guard with
            remembered := ⟨σ.world.typeOf object, id, found⟩ :: σ.guard.remembered } }
  | failed {id : Value} {e : Fault} (statistics : Statistics) (queries : List StoreQuery) :
      ¬ IsExempt σ.guard ⟨object, kind⟩ → g.memoryKey? σ.world kind object = some id →
      knownAnswer? σ.world σ.guard.remembered (σ.world.typeOf object) id = none →
      g.answer σ.world σ.current? kind object = .error e →
      Answers g kind object σ (.error e)
        { σ with statistics, calls := σ.calls ++ queries.map StoreCall.query }

/-- Only answers about reading have a key to be remembered by. -/
theorem eq_read_of_memoryKey? {w : World} {id : Value} (h : g.memoryKey? w kind object = some id) :
    kind = .read := by
  unfold memoryKey? at h
  split at h
  · rename_i hread
    exact hread.1
  · cases h

theorem perform_isAccessible_exempt (hexempt : IsExempt σ.guard ⟨object, kind⟩) :
    (g.isAccessible kind object).perform σ = (.ok true, σ) := by
  unfold IsExempt at hexempt
  unfold isAccessible
  rw [Action.perform_bind_of_ok (Action.perform_get σ), if_pos hexempt, Action.perform_pure]

/-- Where the answer is not to be remembered, the rules are asked every time. -/
theorem perform_isAccessible_asked (hexempt : ¬ IsExempt σ.guard ⟨object, kind⟩)
    (hkey : g.memoryKey? σ.world kind object = none) :
    ∃ (statistics : Statistics) (queries : List StoreQuery),
      (g.isAccessible kind object).perform σ = (g.answer σ.world σ.current? kind object,
        { σ with statistics, calls := σ.calls ++ queries.map StoreCall.query }) := by
  unfold IsExempt at hexempt
  unfold isAccessible
  rw [Action.perform_bind_of_ok (Action.perform_get σ), if_neg hexempt, hkey]
  exact perform_ask g kind object σ

/-- Asking comes to one of these. -/
theorem answers_isAccessible (g : Guard) (kind : AccessKind) (object : ObjectId)
    (σ : Situation) : Answers g kind object σ ((g.isAccessible kind object).perform σ).1
      ((g.isAccessible kind object).perform σ).2 := by
  by_cases hexempt : IsExempt σ.guard ⟨object, kind⟩
  · rw [perform_isAccessible_exempt hexempt]
    exact .exempt hexempt
  cases hkey : g.memoryKey? σ.world kind object with
  | none =>
      obtain ⟨statistics, queries, hask⟩ := perform_isAccessible_asked hexempt hkey
      rw [hask]
      exact .asked statistics queries hexempt hkey
  | some id =>
      obtain rfl := eq_read_of_memoryKey? hkey
      have hmade : ¬ (σ.guard.mode = .disabled ∨ σ.guard.ignored.contains ⟨object, .read⟩) :=
        hexempt
      unfold isAccessible
      rw [Action.perform_bind_of_ok (Action.perform_get σ), if_neg hmade, hkey]
      simp only [askOnce]
      rw [Action.perform_bind_of_ok (Action.perform_get σ)]
      cases hknown : knownAnswer? σ.world σ.guard.remembered (σ.world.typeOf object) id with
      | some known => exact .recalled _ hexempt hkey hknown
      | none =>
          simp only
          rw [Action.perform_bind_of_ok (Action.perform_count _ σ), Action.perform_bind]
          obtain ⟨statistics, queries, hask⟩ := perform_ask g .read object
            { σ with statistics := { σ.statistics with
              readCacheMisses := σ.statistics.readCacheMisses + 1 } }
          simp only [hask]
          cases hanswer : g.answer σ.world σ.current? .read object with
          | ok found => exact .remembered statistics queries hexempt hkey hknown hanswer
          | error e => exact .failed statistics queries hexempt hkey hknown hanswer

theorem Answers.asks {outcome : Except Fault Bool} (h : Answers g kind object σ outcome σ') :
    σ.Asks σ' := by
  cases h with
  | exempt => exact .refl σ
  | recalled statistics => exact .of_eq rfl ⟨[], by simp⟩
  | asked statistics queries => exact .of_eq rfl ⟨queries, rfl⟩
  | remembered statistics queries => exact .of_eq rfl ⟨queries, rfl⟩
  | failed statistics queries => exact .of_eq rfl ⟨queries, rfl⟩

theorem leaves_isAccessible (g : Guard) (kind : AccessKind) (object : ObjectId) :
    (g.isAccessible kind object).Leaves Situation.Asks :=
  fun σ => (answers_isAccessible g kind object σ).asks

/-! ## Enforcing -/

/-- The guard decides that an object can be used, which takes one situation to another. -/
def Permits (g : Guard) (check : Check) (σ σ' : Situation) : Prop :=
  (g.isAccessible check.kind check.object).perform σ = (.ok true, σ')

theorem Permits.asks {check : Check} (h : g.Permits check σ σ') : σ.Asks σ' := by
  have hleaves := leaves_isAccessible g check.kind check.object σ
  rwa [h] at hleaves

/-- Enforcing a check does what asking does, and succeeds exactly if the guard permits. -/
theorem perform_enforce (g : Guard) (kind : AccessKind) (object : ObjectId) (σ : Situation) :
    ∃ outcome, (g.enforce kind object).perform σ =
        (outcome, ((g.isAccessible kind object).perform σ).2) ∧
      (outcome = .ok () ↔ ((g.isAccessible kind object).perform σ).1 = .ok true) := by
  unfold enforce
  rw [Action.perform_bind_of_ok (Action.perform_get σ),
    Action.perform_bind_of_ok (Action.perform_attempt _ σ)]
  rcases h : (g.isAccessible kind object).perform σ with ⟨e | b, σ'⟩
  · simp only
    split <;> exact ⟨_, rfl, by simp⟩
  · cases b <;> exact ⟨_, rfl, by simp⟩

theorem leaves_enforce (g : Guard) (kind : AccessKind) (object : ObjectId) :
    (g.enforce kind object).Leaves Situation.Asks := by
  intro σ
  obtain ⟨outcome, h, -⟩ := perform_enforce g kind object σ
  rw [h]
  exact leaves_isAccessible g kind object σ

theorem permits_of_enforce (h : (g.enforce kind object).perform σ = (.ok (), σ')) :
    g.Permits ⟨object, kind⟩ σ σ' := by
  obtain ⟨outcome, henforce, hpermits⟩ := perform_enforce g kind object σ
  rw [h] at henforce
  obtain ⟨rfl, rfl⟩ := Prod.mk.inj henforce
  exact Prod.ext (hpermits.mp rfl) rfl

/-- The guard permits some checks one after the other, each in the situation that the one
before has left. -/
inductive PermitsAll (g : Guard) : List Check → Situation → Situation → Prop
  | nil (σ : Situation) : PermitsAll g [] σ σ
  | cons {c : Check} {cs : List Check} {σ₁ σ₂ σ₃ : Situation} :
      g.Permits c σ₁ σ₂ → PermitsAll g cs σ₂ σ₃ → PermitsAll g (c :: cs) σ₁ σ₃

theorem leaves_enforceAll (g : Guard) (cs : List Check) :
    (g.enforceAll cs).Leaves Situation.Asks := by
  induction cs with
  | nil => exact Situation.Asks.refl
  | cons c cs ih => exact .bind Situation.Asks.trans (leaves_enforce g c.kind c.object) fun _ => ih

theorem perform_enforceAll_singleton (g : Guard) (c : Check) (σ : Situation) :
    (g.enforceAll [c]).perform σ = (g.enforce c.kind c.object).perform σ := by
  rw [enforceAll, Action.perform_bind]
  rcases (g.enforce c.kind c.object).perform σ with ⟨e | u, σ'⟩ <;> rfl

theorem permitsAll_of_enforceAll {cs : List Check}
    (h : (g.enforceAll cs).perform σ = (.ok (), σ')) : g.PermitsAll cs σ σ' := by
  induction cs generalizing σ with
  | nil =>
      obtain ⟨-, rfl⟩ := Prod.mk.inj h
      exact .nil σ
  | cons c cs ih =>
      rw [enforceAll, Action.perform_bind] at h
      rcases hfirst : (g.enforce c.kind c.object).perform σ with ⟨e | u, σ₁⟩ <;> rw [hfirst] at h
      · cases h
      · exact .cons (permits_of_enforce hfirst) (ih h)

/-! ## Delays -/

theorem perform_checkAccess_now (g : Guard) (hmode : σ.guard.mode = .checking)
    (hdepth : σ.guard.delayDepth = 0) :
    (g.checkAccess kind object).perform σ = (g.enforce kind object).perform σ := by
  unfold checkAccess
  rw [Action.perform_bind_of_ok (Action.perform_get σ)]
  simp [hmode, hdepth]

/-- While a delay is open a check is noted and succeeds. -/
theorem perform_checkAccess_later (g : Guard) (hmode : σ.guard.mode = .checking)
    (hdepth : 0 < σ.guard.delayDepth) :
    (g.checkAccess kind object).perform σ = (.ok (), { σ with
      guard := { σ.guard with pending := note ⟨object, kind⟩ σ.guard.pending } }) := by
  unfold checkAccess
  rw [Action.perform_bind_of_ok (Action.perform_get σ)]
  simp [hmode, hdepth]

@[simp]
theorem mem_note {c d : Check} {pending : List Check} :
    c ∈ note d pending ↔ c ∈ pending ∨ c = d := by
  unfold note
  split
  · rename_i hd
    rw [List.contains_iff_mem] at hd
    constructor
    · exact Or.inl
    · rintro (hc | rfl)
      · exact hc
      · exact hd
  · simp

@[simp]
theorem perform_delayChecks (σ : Situation) :
    delayChecks.perform σ = (.ok (), { σ with
      guard := { σ.guard with delayDepth := σ.guard.delayDepth + 1 } }) := rfl

theorem perform_checkNow_unmatched (g : Guard) (hdepth : σ.guard.delayDepth = 0) :
    g.checkNow.perform σ = (.error (.violation .unmatchedCheck), σ) := by
  unfold checkNow
  rw [Action.perform_bind_of_ok (Action.perform_get σ)]
  simp [hdepth]

theorem perform_checkNow_inner (g : Guard) {depth : Nat} (hdepth : σ.guard.delayDepth = depth + 2) :
    g.checkNow.perform σ =
      (.ok (), { σ with guard := { σ.guard with delayDepth := depth + 1 } }) := by
  unfold checkNow
  rw [Action.perform_bind_of_ok (Action.perform_get σ)]
  simp [hdepth]

/-- The end of the last delay brings all checks that were noted down. -/
theorem perform_checkNow_outermost (g : Guard) (hdepth : σ.guard.delayDepth = 1) :
    g.checkNow.perform σ = (g.enforceAll σ.guard.pending).perform
      { σ with guard := { σ.guard with delayDepth := 0, pending := [] } } := by
  unfold checkNow
  rw [Action.perform_bind_of_ok (Action.perform_get σ)]
  simp only [hdepth]
  rw [Action.perform_bind_of_ok (Action.perform_changeGuard _ σ)]

end Guard

end RowGuard
