import RowGuard.Proofs.Memories
import RowGuard.Proofs.Shapes

/-!
# Delayed checks

To delay checks does not change what they come to.  While a delay is open checks are
noted and no rule is asked; when the last delay ends the checks are made in the order in
which they came, but each only once.  A check that was made and granted would be granted
again in any situation that later granted checks leave, and would leave nothing behind
but counters and calls.  So leaving out the repetitions changes neither whether all checks
are granted nor which of them fails first.
-/

namespace RowGuard

open Query (AccessKind)

/-! ## Requests in a row -/

namespace Guard

/-- The situation that requests leave, served in their order. -/
def after (g : Guard) (requests : List GuardRequest) (σ : Situation) : Situation :=
  requests.foldl (fun τ request => ((g.reply request).perform τ).2) σ

variable {g : Guard} {σ σ' : Situation}

@[simp]
theorem after_nil (g : Guard) (σ : Situation) : g.after [] σ = σ := rfl

@[simp]
theorem after_cons (g : Guard) (request : GuardRequest) (requests : List GuardRequest)
    (σ : Situation) :
    g.after (request :: requests) σ = g.after requests ((g.reply request).perform σ).2 := rfl

theorem after_append (g : Guard) (requests requests' : List GuardRequest) (σ : Situation) :
    g.after (requests ++ requests') σ = g.after requests' (g.after requests σ) :=
  List.foldl_append

theorem replies_append (g : Guard) (requests requests' : List GuardRequest) (σ : Situation) :
    g.replies (requests ++ requests') σ =
      g.replies requests σ ++ g.replies requests' (g.after requests σ) := by
  induction requests generalizing σ with
  | nil => rfl
  | cons request requests ih =>
      simp only [List.cons_append, replies, after_cons]
      rw [ih]

end Guard

/-- The check that a request asks for. -/
def GuardRequest.check? : GuardRequest → Option Check
  | .checkAccess kind object => some ⟨object, kind⟩
  | _ => none

/-- The request that asks for a check. -/
def Check.request (c : Check) : GuardRequest := .checkAccess c.kind c.object

/-- The checks that requests ask for, in their order. -/
def checksOf (requests : List GuardRequest) : List Check :=
  requests.filterMap GuardRequest.check?

/-- Checks, some of them between the beginning and the end of delays that nest. -/
inductive Balanced : List GuardRequest → Prop
  | nil : Balanced []
  | check (c : Check) : Balanced [c.request]
  | delayed {requests : List GuardRequest} : Balanced requests →
      Balanced (.delayChecks :: (requests ++ [.checkNow]))
  | append {requests requests' : List GuardRequest} : Balanced requests → Balanced requests' →
      Balanced (requests ++ requests')

/-! ## Situations that come about -/

/-- The situations in which a unit of work can be: it starts with no checks, guards serve
requests, and anything but the state of the checks may change in between. -/
inductive Situation.Reached : Situation → Prop
  | start {σ : Situation} : σ.guard = {} → Reached σ
  | served {σ : Situation} (g : Guard) (request : GuardRequest) :
      Reached σ → Reached ((g.reply request).perform σ).2
  | between {σ σ' : Situation} : Reached σ → σ'.guard = σ.guard → Reached σ'

/-- No check waits without a delay. -/
def GuardState.Idle (state : GuardState) : Prop := state.delayDepth = 0 → state.pending = []

namespace GuardState.Idle

variable {g : Guard} {σ σ' : Situation}

theorem asks (h : σ.guard.Idle) (hasks : σ.Asks σ') : σ'.guard.Idle := by
  rw [hasks.guard]
  exact h

theorem checkAccess (h : σ.guard.Idle) (g : Guard) (kind : AccessKind) (object : ObjectId) :
    ((g.checkAccess kind object).perform σ).2.guard.Idle := by
  unfold Guard.checkAccess
  rw [Action.perform_bind_of_ok (Action.perform_get σ)]
  simp only
  split
  · exact h
  · split
    · rename_i hopen
      exact fun hclosed => absurd hclosed (Nat.ne_of_gt hopen)
    · exact h.asks (Guard.leaves_enforce g kind object σ)

theorem checkNow (h : σ.guard.Idle) (g : Guard) : (g.checkNow.perform σ).2.guard.Idle := by
  rcases hdepth : σ.guard.delayDepth with _ | _ | depth
  · rw [Guard.perform_checkNow_unmatched g hdepth]
    exact h
  · rw [Guard.perform_checkNow_outermost g hdepth]
    apply asks _ (Guard.leaves_enforceAll g σ.guard.pending _)
    exact fun _ => rfl
  · rw [Guard.perform_checkNow_inner g hdepth]
    exact fun hclosed => absurd hclosed (Nat.succ_ne_zero depth)

theorem filterReadable (h : σ.guard.Idle) (g : Guard) (objects : List ObjectId) :
    ((g.filterReadable objects).perform σ).2.guard.Idle := by
  have hleaves : (g.filterReadable objects).Leaves Situation.Asks := by
    induction objects with
    | nil => exact Situation.Asks.refl
    | cons o os ih =>
        exact .bind Situation.Asks.trans (Guard.leaves_isAccessible g .read o) fun _ =>
          .bind Situation.Asks.trans ih fun _ => Situation.Asks.refl
  exact h.asks (hleaves σ)

/-- No request leaves a check behind that waits without a delay. -/
theorem reply (h : σ.guard.Idle) (g : Guard) (request : GuardRequest) :
    ((g.reply request).perform σ).2.guard.Idle := by
  cases request with
  | isAccessible kind object =>
      simp only [Guard.reply, Action.perform_bind_pure]
      exact h.asks (Guard.leaves_isAccessible g kind object σ)
  | checkAccess kind object =>
      simp only [Guard.reply, Action.perform_bind_pure]
      exact h.checkAccess g kind object
  | delayChecks => exact fun hclosed => absurd hclosed (Nat.succ_ne_zero _)
  | checkNow =>
      simp only [Guard.reply, Action.perform_bind_pure]
      exact h.checkNow g
  | filterReadable objects =>
      simp only [Guard.reply, Action.perform_bind_pure]
      exact h.filterReadable g objects
  | enableChecks => exact h
  | disableChecks => exact h
  | ignoreChecks => exact h
  | forget => exact h

end GuardState.Idle

theorem Situation.Reached.idle {σ : Situation} (h : σ.Reached) : σ.guard.Idle := by
  induction h with
  | start hfresh =>
      rw [hfresh]
      exact fun _ => rfl
  | served g request _ ih => exact ih.reply g request
  | between _ hsame ih =>
      rw [hsame]
      exact ih

/-! ## Situations that grant alike -/

/-- Two situations differ in counters and calls only. -/
structure Situation.Alike (σ σ' : Situation) : Prop where
  world : σ'.world = σ.world
  current : σ'.current? = σ.current?
  guard : σ'.guard = σ.guard

namespace Situation.Alike

variable {g : Guard} {σ σ' σ'' : Situation}

theorem refl (σ : Situation) : σ.Alike σ := ⟨rfl, rfl, rfl⟩

theorem trans (h : σ.Alike σ') (h' : σ'.Alike σ'') : σ.Alike σ'' :=
  ⟨h'.world.trans h.world, h'.current.trans h.current, h'.guard.trans h.guard⟩

theorem inStep_count (f : Statistics → Statistics) :
    Action.InStep Alike (Action.count f) (Action.count f) := fun _ _ h => ⟨rfl, ⟨h.1, h.2, h.3⟩⟩

theorem inStep_ask (g : Guard) (kind : AccessKind) (object : ObjectId) :
    Action.InStep Alike (g.ask kind object) (g.ask kind object) := by
  intro σ σ' h
  obtain ⟨_, _, hask⟩ := Guard.perform_ask g kind object σ
  obtain ⟨_, _, hask'⟩ := Guard.perform_ask g kind object σ'
  rw [hask, hask', h.world, h.current]
  exact ⟨rfl, rfl, rfl, h.guard⟩

theorem inStep_isAccessible (g : Guard) (kind : AccessKind) (object : ObjectId) :
    Action.InStep Alike (g.isAccessible kind object) (g.isAccessible kind object) := by
  unfold Guard.isAccessible
  apply Action.InStep.get
  intro σ σ' h
  rw [h.world, h.guard]
  split
  · exact .pure true
  split
  · rename_i id _
    unfold Guard.askOnce
    apply Action.InStep.get
    intro σ σ' h
    simp only [h.world, h.guard]
    split
    · rename_i known _
      exact .bind (inStep_count _) fun _ => .pure known
    · apply Action.InStep.bind (inStep_count _)
      intro _
      apply Action.InStep.bind (inStep_ask g .read object)
      intro found
      apply Action.InStep.bind _ fun _ => .pure found
      exact fun _ _ h => ⟨rfl, h.1, h.2, by simp [h.3]⟩
  · exact inStep_ask g kind object

theorem inStep_enforce (g : Guard) (kind : AccessKind) (object : ObjectId) :
    Action.InStep Alike (g.enforce kind object) (g.enforce kind object) := by
  unfold Guard.enforce
  apply Action.InStep.get
  intro σ σ' h
  rw [h.world]
  apply Action.InStep.bind (.attempt (inStep_isAccessible g kind object))
  rintro (f | _ | _)
  · simp only
    split
    · exact .throw f
    · exact .throw _
  · exact .throw _
  · exact .pure ()

end Situation.Alike

/-! ## Checks that were granted -/

theorem Decimal.same_self (x : Decimal) : x.same x := by
  unfold same compare compareDigits
  simp

mutual

theorem Value.agree_self {sameObject : ObjectId → ObjectId → Bool}
    (hobjects : ∀ a, sameObject a a) : (v : Value) → v.agree sameObject v
  | .null => rfl
  | .boolean b => beq_self_eq_true b
  | .string s => beq_self_eq_true s
  | .date d => by simp [agree]
  | .time t => by simp [agree]
  | .timestamp t => by simp [agree]
  | .entity a => hobjects a
  | .collection vs => agreeAll_self hobjects vs
  | .tuple vs => agreeAll_self hobjects vs
  | .integer n => Decimal.same_self _
  | .decimal d => Decimal.same_self _

theorem Value.agreeAll_self {sameObject : ObjectId → ObjectId → Bool}
    (hobjects : ∀ a, sameObject a a) : (vs : List Value) → agreeAll sameObject vs vs
  | [] => rfl
  | v :: vs => by
      rw [agreeAll, agree_self hobjects v, agreeAll_self hobjects vs]
      rfl

end

theorem World.same_self (w : World) (v : Value) : w.same v v := by
  apply Value.agree_self
  intro a
  simp [sameObject, sameObjectWithin]

namespace Guard

variable {g : Guard} {σ σ' σ'' : Situation} {c d : Check}

/-- A check is granted without anything that has to be remembered. -/
inductive Grants (g : Guard) (c : Check) (σ : Situation) : Prop
  | exempt : IsExempt σ.guard c → Grants g c σ
  | asked : g.memoryKey? σ.world c.kind c.object = none →
      g.answer σ.world σ.current? c.kind c.object = .ok true → Grants g c σ
  | recalled {id : Value} : g.memoryKey? σ.world c.kind c.object = some id →
      knownAnswer? σ.world σ.guard.remembered (σ.world.typeOf c.object) id = some true →
      Grants g c σ

/-- What the permission of a check leaves of the situation. -/
theorem Permits.guard_eq (h : g.Permits c σ σ') : σ'.guard = σ.guard ∨
    ∃ id, g.memoryKey? σ.world c.kind c.object = some id ∧ σ'.guard = { σ.guard with
      remembered := ⟨σ.world.typeOf c.object, id, true⟩ :: σ.guard.remembered } := by
  have hanswers := answers_isAccessible g c.kind c.object σ
  rw [h] at hanswers
  generalize houtcome : (Except.ok true : Except Fault Bool) = outcome at hanswers
  cases hanswers with
  | remembered _ _ _ hkey =>
      obtain rfl := Except.ok.inj houtcome
      exact Or.inr ⟨_, hkey, rfl⟩
  | _ => exact Or.inl rfl

/-- What is remembered last is found first. -/
theorem knownAnswer?_cons (w : World) (r : Remembered) (remembered : List Remembered)
    (type : String) (id : Value) : knownAnswer? w (r :: remembered) type id =
      if r.type == type && w.same r.id id then some r.readable
      else knownAnswer? w remembered type id := by
  unfold knownAnswer?
  rw [List.find?_cons]
  cases r.type == type && w.same r.id id <;> rfl

theorem Grants.congr (h : g.Grants c σ) (halike : σ.Alike σ') : g.Grants c σ' := by
  cases h with
  | exempt hexempt => exact .exempt (halike.guard ▸ hexempt)
  | asked hkey hanswer =>
      rw [← halike.world] at hkey hanswer
      rw [← halike.current] at hanswer
      exact .asked hkey hanswer
  | recalled hkey hknown =>
      rw [← halike.world] at hkey hknown
      rw [← halike.guard] at hknown
      exact .recalled hkey hknown

/-- A check that is granted in this way is permitted, and leaves only counters and calls. -/
theorem Grants.permits (h : g.Grants c σ) : ∃ σ', g.Permits c σ σ' ∧ σ.Alike σ' := by
  have hanswers := answers_isAccessible g c.kind c.object σ
  unfold Permits
  generalize hserved : (g.isAccessible c.kind c.object).perform σ = served at hanswers
  obtain ⟨outcome, σ'⟩ := served
  cases hanswers with
  | exempt => exact ⟨_, rfl, .refl _⟩
  | recalled _ hmade hkey hknown =>
      cases h with
      | exempt hexempt => exact absurd hexempt hmade
      | asked hnone => simp [hnone] at hkey
      | recalled hkey' hknown' =>
          obtain rfl := Option.some.inj (hkey.symm.trans hkey')
          obtain rfl := Option.some.inj (hknown.symm.trans hknown')
          exact ⟨_, rfl, ⟨rfl, rfl, rfl⟩⟩
  | asked _ _ hmade hkey =>
      cases h with
      | exempt hexempt => exact absurd hexempt hmade
      | asked _ hanswer => exact ⟨_, congrArg (·, _) hanswer, ⟨rfl, rfl, rfl⟩⟩
      | recalled hkey' => simp [hkey] at hkey'
  | remembered _ _ hmade hkey hunknown =>
      cases h with
      | exempt hexempt => exact absurd hexempt hmade
      | asked hnone => simp [hnone] at hkey
      | recalled hkey' hknown =>
          obtain rfl := Option.some.inj (hkey.symm.trans hkey')
          simp [hunknown] at hknown
  | failed _ _ hmade hkey hunknown =>
      cases h with
      | exempt hexempt => exact absurd hexempt hmade
      | asked hnone => simp [hnone] at hkey
      | recalled hkey' hknown =>
          obtain rfl := Option.some.inj (hkey.symm.trans hkey')
          simp [hunknown] at hknown

/-- A check that was permitted is granted from then on. -/
theorem Permits.grants (h : g.Permits c σ σ') : g.Grants c σ' := by
  have hanswers := answers_isAccessible g c.kind c.object σ
  rw [h] at hanswers
  generalize houtcome : (Except.ok true : Except Fault Bool) = outcome at hanswers
  cases hanswers with
  | exempt hexempt => exact .exempt hexempt
  | recalled _ _ hkey hknown =>
      obtain rfl := Except.ok.inj houtcome
      exact .recalled hkey hknown
  | asked _ _ _ hkey => exact .asked hkey houtcome.symm
  | remembered _ _ _ hkey =>
      obtain rfl := Except.ok.inj houtcome
      refine .recalled hkey ?_
      rw [knownAnswer?_cons]
      simp [World.same_self]
  | failed => cases houtcome

/-- What is granted stays so when another check is permitted, since that can only add an
answer that grants. -/
theorem Permits.keeps (h : g.Permits d σ σ') (hgrants : g.Grants c σ) : g.Grants c σ' := by
  have hasks := h.asks
  cases hgrants with
  | exempt hexempt =>
      apply Grants.exempt
      rw [hasks.guard]
      exact hexempt
  | asked hkey hanswer =>
      rw [← hasks.world] at hkey hanswer
      rw [← hasks.current] at hanswer
      exact .asked hkey hanswer
  | recalled hkey hknown =>
      rw [← hasks.world] at hkey
      apply Grants.recalled hkey
      rcases h.guard_eq with hguard | ⟨id, -, hguard⟩ <;> rw [hasks.world, hguard]
      · exact hknown
      · rw [knownAnswer?_cons]
        split
        · rfl
        · exact hknown

/-! ## Leaving out repetitions -/

/-- The checks that have not been seen, each where it comes first. -/
def firsts (seen : List Check) : List Check → List Check
  | [] => []
  | c :: cs => if seen.contains c then firsts seen cs else c :: firsts (seen ++ [c]) cs

theorem perform_enforceAll_cons (g : Guard) (c : Check) (cs : List Check) (σ : Situation) :
    (g.enforceAll (c :: cs)).perform σ =
      match (g.enforce c.kind c.object).perform σ with
      | (.ok _, σ') => (g.enforceAll cs).perform σ'
      | (.error e, σ') => (.error e, σ') := by
  rw [enforceAll, Action.perform_bind]
  rcases (g.enforce c.kind c.object).perform σ with ⟨_ | _, _⟩ <;> rfl

theorem Permits.enforce (h : g.Permits c σ σ') :
    (g.enforce c.kind c.object).perform σ = (.ok (), σ') := by
  obtain ⟨outcome, henforce, hok⟩ := perform_enforce g c.kind c.object σ
  rw [h] at henforce hok
  rw [henforce, hok.mpr rfl]

/-- Checks that were granted can be left out: the others come to the same. -/
theorem enforceAll_firsts (cs : List Check) {seen : List Check} (halike : σ.Alike σ')
    (hseen : ∀ c ∈ seen, g.Grants c σ) :
    ((g.enforceAll (firsts seen cs)).perform σ).1 = ((g.enforceAll cs).perform σ').1 := by
  induction cs generalizing seen σ σ' with
  | nil => rfl
  | cons c cs ih =>
      rw [firsts, perform_enforceAll_cons g c cs σ']
      split
      · rename_i hcontained
        rw [List.contains_iff_mem] at hcontained
        obtain ⟨after, hpermits, hafter⟩ := ((hseen c hcontained).congr halike).permits
        rw [hpermits.enforce]
        exact ih (halike.trans hafter) hseen
      · obtain ⟨houtcome, hafter⟩ := Situation.Alike.inStep_enforce g c.kind c.object σ σ' halike
        rw [perform_enforceAll_cons]
        rcases hfirst : (g.enforce c.kind c.object).perform σ with ⟨e | u, τ⟩ <;>
          rcases hsecond : (g.enforce c.kind c.object).perform σ' with ⟨e' | u', τ'⟩ <;>
          rw [hfirst, hsecond] at houtcome hafter <;> cases houtcome
        · rfl
        · have hpermits := permits_of_enforce hfirst
          refine ih hafter fun d hd => ?_
          rcases List.mem_append.mp hd with hd | hd
          · exact hpermits.keeps (hseen d hd)
          · rw [List.mem_singleton.mp hd]
            exact hpermits.grants

/-! ## While a delay is open -/

/-- The situation with some delays open and some checks noted down. -/
def delaying (σ : Situation) (delayDepth : Nat) (pending : List Check) : Situation :=
  { σ with guard := { σ.guard with delayDepth, pending } }

/-- Notes some checks down. -/
def noteAll (pending cs : List Check) : List Check :=
  cs.foldl (fun pending c => note c pending) pending

theorem noteAll_append (pending cs cs' : List Check) :
    noteAll pending (cs ++ cs') = noteAll (noteAll pending cs) cs' :=
  List.foldl_append

theorem noteAll_eq (pending cs : List Check) :
    noteAll pending cs = pending ++ firsts pending cs := by
  induction cs generalizing pending with
  | nil => exact (List.append_nil pending).symm
  | cons c cs ih =>
      rw [noteAll, List.foldl_cons, ← noteAll, ih, firsts, note]
      split
      · rfl
      · rw [List.append_assoc, List.singleton_append]

variable {requests earlier : List GuardRequest} {pending : List Check}

theorem reply_check_delaying (hmode : σ.guard.mode = .checking) (c : Check) (depth : Nat) :
    (g.reply c.request).perform (delaying σ (depth + 1) pending) =
      (.ok .done, delaying σ (depth + 1) (note c pending)) := by
  unfold Check.request reply
  rw [Action.perform_bind_pure,
    perform_checkAccess_later g (σ := delaying σ (depth + 1) pending) hmode (Nat.succ_pos depth)]
  rfl

theorem reply_delayChecks_delaying (depth : Nat) :
    (g.reply .delayChecks).perform (delaying σ depth pending) =
      (.ok .done, delaying σ (depth + 1) pending) := rfl

theorem reply_checkNow_delaying (depth : Nat) :
    (g.reply .checkNow).perform (delaying σ (depth + 2) pending) =
      (.ok .done, delaying σ (depth + 1) pending) := by
  have hdepth : (delaying σ (depth + 2) pending).guard.delayDepth = depth + 2 := rfl
  unfold reply
  rw [Action.perform_bind_pure, perform_checkNow_inner g hdepth]
  rfl

theorem checksOf_append (requests requests' : List GuardRequest) :
    checksOf (requests ++ requests') = checksOf requests ++ checksOf requests' :=
  List.filterMap_append

theorem checksOf_delayed (requests : List GuardRequest) :
    checksOf (.delayChecks :: (requests ++ [.checkNow])) = checksOf requests := by
  rw [checksOf, List.filterMap_cons_none rfl, ← checksOf, checksOf_append]
  exact List.append_nil _

/-- While a delay is open, requests note their checks down and do nothing else. -/
theorem after_delaying (hbalanced : Balanced requests) (hmode : σ.guard.mode = .checking)
    (depth : Nat) (pending : List Check) :
    g.after requests (delaying σ (depth + 1) pending) =
      delaying σ (depth + 1) (noteAll pending (checksOf requests)) := by
  induction hbalanced generalizing depth pending with
  | nil => rfl
  | check c =>
      rw [after_cons, reply_check_delaying hmode c depth]
      rfl
  | @delayed requests _ ih =>
      rw [after_cons, reply_delayChecks_delaying, after_append, ih, after_cons,
        reply_checkNow_delaying, after_nil, checksOf_delayed]
  | append _ _ ih ih' => rw [after_append, ih, ih', checksOf_append, noteAll_append]

theorem replies_delaying (hbalanced : Balanced requests) (hmode : σ.guard.mode = .checking)
    (depth : Nat) (pending : List Check) :
    ∀ r ∈ g.replies requests (delaying σ (depth + 1) pending), r = .ok .done := by
  induction hbalanced generalizing depth pending with
  | nil => simp [replies]
  | check c => simp [replies, reply_check_delaying hmode c depth]
  | delayed hinner ih =>
      simp only [replies, replies_append, reply_delayChecks_delaying,
        after_delaying hinner hmode, reply_checkNow_delaying]
      intro r hr
      simp only [List.mem_cons, List.mem_append, List.not_mem_nil, or_false] at hr
      rcases hr with rfl | hr | rfl
      · rfl
      · exact ih (depth + 1) pending r hr
      · rfl
  | append hfirst _ ih ih' =>
      rw [replies_append, after_delaying hfirst hmode]
      intro r hr
      rcases List.mem_append.mp hr with hr | hr
      · exact ih depth pending r hr
      · exact ih' depth _ r hr

/-- Nothing but delays and noted checks changes on the way either. -/
theorem after_delaying_of_isPrefix (hbalanced : Balanced requests)
    (hmode : σ.guard.mode = .checking) (hearlier : earlier <+: requests) (depth : Nat)
    (pending : List Check) : ∃ depth' pending',
      g.after earlier (delaying σ (depth + 1) pending) = delaying σ depth' pending' := by
  induction hbalanced generalizing earlier depth pending with
  | nil =>
      rw [List.prefix_nil.mp hearlier]
      exact ⟨_, _, rfl⟩
  | check c =>
      rcases List.prefix_cons_iff.mp hearlier with rfl | ⟨none, rfl, hnone⟩
      · exact ⟨_, _, rfl⟩
      · rw [List.prefix_nil.mp hnone]
        exact ⟨_, _, after_delaying (.check c) hmode depth pending⟩
  | @delayed requests hinner ih =>
      rcases List.prefix_cons_iff.mp hearlier with rfl | ⟨inner, rfl, hstart⟩
      · exact ⟨_, _, rfl⟩
      rcases List.prefix_concat_iff.mp hstart with rfl | hstart
      · exact ⟨_, _, after_delaying (.delayed hinner) hmode depth pending⟩
      · exact ih hstart (depth + 1) pending
  | @append requests requests' hfirst _ ih ih' =>
      obtain ⟨later, hsplit⟩ := hearlier
      rcases List.append_eq_append_iff.mp hsplit with ⟨rest, rfl, -⟩ | ⟨rest, rfl, rfl⟩
      · exact ih (List.prefix_append earlier rest) depth pending
      · rw [after_append, after_delaying hfirst hmode]
        exact ih' (List.prefix_append rest later) depth _

/-! ## Immediate checks -/

/-- A check that is made at once is refused, or granted and leaves the delays alone. -/
theorem reply_check_now (hmode : σ.guard.mode = .checking) (hclosed : σ.guard.delayDepth = 0)
    (c : Check) :
    (∃ f τ, (g.enforce c.kind c.object).perform σ = (.error f, τ) ∧
      (g.reply c.request).perform σ = (.error f, τ)) ∨
    (∃ τ, (g.enforce c.kind c.object).perform σ = (.ok (), τ) ∧
      (g.reply c.request).perform σ = (.ok .done, τ) ∧
      τ.guard.mode = .checking ∧ τ.guard.delayDepth = 0) := by
  have hreply : (g.reply c.request).perform σ =
      (((g.enforce c.kind c.object).perform σ).1.map fun _ => .done,
        ((g.enforce c.kind c.object).perform σ).2) := by
    rw [Check.request, reply, Action.perform_bind_pure, perform_checkAccess_now g hmode hclosed]
  have hasks := leaves_enforce g c.kind c.object σ
  rcases henforce : (g.enforce c.kind c.object).perform σ with ⟨f | u, τ⟩ <;>
    rw [henforce] at hreply hasks
  · exact Or.inl ⟨f, τ, rfl, hreply⟩
  · have hguard : τ.guard = { σ.guard with remembered := τ.guard.remembered } := hasks.guard
    exact Or.inr ⟨τ, rfl, hreply, by rw [hguard, hmode], by rw [hguard, hclosed]⟩

/-- Checks made at once are all granted exactly if they are when made in one go. -/
theorem perform_enforceAll_eq_ok_iff (cs : List Check) (hmode : σ.guard.mode = .checking)
    (hclosed : σ.guard.delayDepth = 0) : ((g.enforceAll cs).perform σ).1 = .ok () ↔
      ∀ r ∈ g.replies (cs.map Check.request) σ, r = .ok .done := by
  induction cs generalizing σ with
  | nil => simp [enforceAll, replies]
  | cons c cs ih =>
      rw [List.map_cons, replies, perform_enforceAll_cons]
      rcases reply_check_now (g := g) hmode hclosed c with
        ⟨f, τ, henforce, hreply⟩ | ⟨τ, henforce, hreply, hmode', hclosed'⟩ <;>
        simp only [henforce, hreply, List.forall_mem_cons]
      · simp
      · rw [ih hmode' hclosed']
        simp

/-- Otherwise what fails in one go is the first of them that fails. -/
theorem perform_enforceAll_eq_error (cs : List Check) (hmode : σ.guard.mode = .checking)
    (hclosed : σ.guard.delayDepth = 0) {granted others : List (Except Fault GuardReply)}
    {f : Fault} (hsplit : g.replies (cs.map Check.request) σ = granted ++ .error f :: others)
    (hgranted : ∀ r ∈ granted, r = .ok .done) : ((g.enforceAll cs).perform σ).1 = .error f := by
  induction cs generalizing σ granted with
  | nil => simp [replies] at hsplit
  | cons c cs ih =>
      rw [List.map_cons, replies] at hsplit
      rw [perform_enforceAll_cons]
      rcases reply_check_now (g := g) hmode hclosed c with
        ⟨f', τ, henforce, hreply⟩ | ⟨τ, henforce, hreply, hmode', hclosed'⟩ <;>
        simp only [hreply] at hsplit <;> rw [henforce] <;>
        rcases granted with _ | ⟨r, granted⟩ <;> obtain ⟨hfirst, hrest⟩ := List.cons.inj hsplit
      · exact congrArg Except.error (Except.error.inj hfirst)
      · rw [hgranted r List.mem_cons_self] at hfirst
        cases hfirst
      · cases hfirst
      · exact ih hmode' hclosed' hrest fun r hr => hgranted r (List.mem_cons_of_mem _ hr)

/-! ## The end of the last delay -/

/-- Requests within a delay come to what their checks come to at once. -/
structure Defers (g : Guard) (requests : List GuardRequest) (σ : Situation) : Prop where
  /-- Nothing fails before the last delay ends. -/
  accepted : ∀ r ∈ g.replies (.delayChecks :: requests) σ, r = .ok .done
  /-- No rule is asked before the last delay ends: neither objects nor counters, calls or
  remembered answers change. -/
  unasked : ∀ earlier, earlier <+: .delayChecks :: requests →
    ∃ depth pending, g.after earlier σ = delaying σ depth pending
  /-- The end of the last delay succeeds exactly if all checks would at once. -/
  granted : ((g.reply .checkNow).perform (g.after (.delayChecks :: requests) σ)).1 = .ok .done ↔
    ∀ r ∈ g.replies ((checksOf requests).map Check.request) σ, r = .ok .done
  /-- Otherwise it fails as the first check that fails at once. -/
  refused : ∀ granted f others,
    g.replies ((checksOf requests).map Check.request) σ = granted ++ .error f :: others →
    (∀ r ∈ granted, r = .ok .done) →
    ((g.reply .checkNow).perform (g.after (.delayChecks :: requests) σ)).1 = .error f
  /-- Either way no delay is open afterwards, and no check waits. -/
  closed : let state := (g.after (.delayChecks :: (requests ++ [.checkNow])) σ).guard
    state.delayDepth = 0 ∧ state.pending = []

/-- The end of the last delay makes the checks that came in, each where it came first, and
comes to what all of them come to. -/
theorem reply_checkNow_outermost (hbalanced : Balanced requests)
    (hmode : σ.guard.mode = .checking) (hclosed : σ.guard.delayDepth = 0)
    (hidle : σ.guard.pending = []) :
    ((g.reply .checkNow).perform (g.after (.delayChecks :: requests) σ)).1 =
        (((g.enforceAll (checksOf requests)).perform σ).1.map fun _ => .done) ∧
      σ.Asks ((g.reply .checkNow).perform (g.after (.delayChecks :: requests) σ)).2 := by
  have hσ : delaying σ 0 [] = σ := by
    rw [delaying, ← hclosed, ← hidle]
  have hafter : g.after (.delayChecks :: requests) σ =
      delaying σ 1 (firsts [] (checksOf requests)) := by
    calc g.after (.delayChecks :: requests) σ
        = g.after (.delayChecks :: requests) (delaying σ 0 []) := by rw [hσ]
      _ = g.after requests (delaying σ 1 []) := rfl
      _ = delaying σ 1 (noteAll [] (checksOf requests)) := after_delaying hbalanced hmode 0 []
      _ = delaying σ 1 (firsts [] (checksOf requests)) := by rw [noteAll_eq, List.nil_append]
  have hend : g.checkNow.perform (delaying σ 1 (firsts [] (checksOf requests))) =
      (g.enforceAll (firsts [] (checksOf requests))).perform σ := by
    rw [perform_checkNow_outermost g rfl]
    exact congrArg _ hσ
  rw [hafter, reply, Action.perform_bind_pure, hend,
    enforceAll_firsts _ (.refl σ) fun _ hc => absurd hc List.not_mem_nil]
  exact ⟨rfl, leaves_enforceAll g _ σ⟩

/-- An archive whose rules can tell documents apart by their numbers. -/
def numberedArchive (policy : Policy) : Guard :=
  { archiveGuard with
    mapping := { classes := [EntityClass.identifiedBy { name := "Document" } "id"] }, policy }

/-- Two documents are checked, the first of them twice, in delays that nest. -/
def archiveRequests : List GuardRequest :=
  [Check.request ⟨0, .read⟩, .delayChecks, Check.request ⟨0, .read⟩, Check.request ⟨1, .read⟩,
    .checkNow]

theorem balanced_archiveRequests : Balanced archiveRequests :=
  .append (.check ⟨0, .read⟩)
    (.delayed (.append (.check ⟨0, .read⟩) (.check ⟨1, .read⟩)))

end Guard

end RowGuard
