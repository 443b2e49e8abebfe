import RowGuard.Proofs.Instantiations

/-!
# Memberships in no roles

Without roles a membership in them is false, or undefined where what it asks for
is, and the restriction always takes it for false.  That settles conditions more
than they are, which never changes what had been decided.  Where all memberships
stand under an even number of negations it only ever makes more conditions false,
so a condition that comes out true was true.
-/

namespace RowGuard

open Query (Label Phrase)
open Query.Phrase
open Restriction

/-! ## Deciding what was open -/

namespace Traced

variable {α β : Type} {d : α} {x y : Traced (Option α)}

/-- The second computation is the first one, but may decide in one way what the first
one leaves open. -/
def Firms (d : α) (x y : Traced (Option α)) : Prop :=
  (∀ e, y.outcome = .error e → ∃ e', x.outcome = .error e') ∧
    ∀ a b, x.outcome = .ok a → y.outcome = .ok b → a = b ∨ a = none ∧ b = some d

theorem Firms.refl (d : α) (x : Traced (Option α)) : Firms d x x :=
  ⟨fun e h => ⟨e, h⟩, fun _ _ ha hb => Or.inl (Except.ok.inj (ha.symm.trans hb))⟩

/-- What goes on alike from the same results firms as the results do. -/
theorem Firms.bind {e : β} (h : Firms d x y) {f g : Option α → Traced (Option β)}
    (hsame : ∀ a, Firms e (f a) (g a)) (hdecided : Firms e (f none) (g (some d))) :
    Firms e (x >>= f) (y >>= g) := by
  have hstep : ∀ a b, x.outcome = .ok a → y.outcome = .ok b → Firms e (f a) (g b) := by
    intro a b ha hb
    rcases h.2 a b ha hb with rfl | ⟨rfl, rfl⟩
    · exact hsame a
    · exact hdecided
  constructor
  · intro fault hfault
    cases hx : x.outcome with
    | error e' => exact ⟨e', by rw [bind_of_error hx]⟩
    | ok a =>
        cases hy : y.outcome with
        | error e' =>
            obtain ⟨e'', he⟩ := h.1 e' hy
            cases hx.symm.trans he
        | ok b =>
            rw [bind_of_ok hy] at hfault
            obtain ⟨e', he⟩ := (hstep a b hx hy).1 fault hfault
            exact ⟨e', by rw [bind_of_ok hx]; exact he⟩
  · intro c d hc hd
    obtain ⟨a, ha, hc⟩ := outcome_bind_eq_ok.mp hc
    obtain ⟨b, hb, hd⟩ := outcome_bind_eq_ok.mp hd
    exact (hstep a b ha hb).2 c d hc hd

theorem Firms.pure_of_none (b : Option α) (hb : b = none ∨ b = some d) :
    Firms d (pure none) (pure b) := by
  refine ⟨nofun, fun a b' ha hb' => ?_⟩
  cases ha
  cases hb'
  rcases hb with rfl | rfl
  · exact Or.inl rfl
  · exact Or.inr ⟨rfl, rfl⟩

end Traced

namespace Expression

variable {ev : Evaluator} {sub : Phrase → Eval Value} {env : Environment} {d : Bool}

/-- The truth of a value that firms up does so too. -/
theorem firms_truth {x y : Eval Value} (h : Traced.Firms (.boolean d) x.run y.run) :
    Traced.Firms d (x.run >>= fun v => Traced.lift (Operation.truth ev.world v))
      (y.run >>= fun v => Traced.lift (Operation.truth ev.world v)) :=
  h.bind (fun _ => Traced.Firms.refl d _) (Traced.Firms.pure_of_none _ (Or.inr rfl))

theorem firms_ofTruth {x y : Traced (Option Bool)} (h : Traced.Firms d x y) :
    Traced.Firms (.boolean d) (Eval.ofTruth x).run (Eval.ofTruth y).run :=
  h.bind (fun _ => Traced.Firms.refl _ _) (Traced.Firms.pure_of_none _ (Or.inr rfl))

/-- How a truth and the truth of what is behind it combine, one of the two truths
deciding by itself. -/
def combine (decisive : Bool) (rest : Traced (Option Bool)) :
    Option Bool → Traced (Option Bool)
  | some b => if b = decisive then pure (some decisive) else rest
  | none => rest >>= fun b => pure (if b = some decisive then some decisive else none)

/-- The truth of a condition. -/
def truthOf (ev : Evaluator) (sub : Phrase → Eval Value) (env : Environment) (t : Phrase) :
    Traced (Option Bool) :=
  (value ev sub env t).run >>= fun v => Traced.lift (Operation.truth ev.world v)

theorem anyHolds_cons (t : Phrase) (ts : List Phrase) :
    anyHolds ev sub env (t :: ts) =
      truthOf ev sub env t >>= combine true (anyHolds ev sub env ts) := by
  rw [anyHolds, truthOf, bind_assoc]
  refine bind_congr fun v => bind_congr fun b => ?_
  rcases b with _ | _ | _
  · refine bind_congr fun b => ?_
    rcases b with _ | _ | _ <;> rfl
  · rfl
  · rfl

theorem allHold_cons (t : Phrase) (ts : List Phrase) :
    allHold ev sub env (t :: ts) =
      truthOf ev sub env t >>= combine false (allHold ev sub env ts) := by
  rw [allHold, truthOf, bind_assoc]
  refine bind_congr fun v => bind_congr fun b => ?_
  rcases b with _ | _ | _
  · refine bind_congr fun b => ?_
    rcases b with _ | _ | _ <;> rfl
  · rfl
  · rfl

theorem combine_firms {decisive : Bool} {x y rest rest' : Traced (Option Bool)}
    (h : Traced.Firms d x y) (hrest : Traced.Firms d rest rest') :
    Traced.Firms d (x >>= combine decisive rest) (y >>= combine decisive rest') := by
  have hopen : Traced.Firms d (combine decisive rest none) (combine decisive rest' none) := by
    refine hrest.bind (fun b => Traced.Firms.refl d _) (Traced.Firms.pure_of_none _ ?_)
    by_cases hd : d = decisive
    · simp [hd]
    · simp [hd]
  refine h.bind (fun b => ?_) ?_
  · rcases b with _ | b
    · exact hopen
    · simp only [combine]
      split
      · exact Traced.Firms.refl d _
      · exact hrest
  · simp only [combine]
    split
    · rename_i hd
      subst hd
      refine ⟨nofun, fun a b ha hb => ?_⟩
      obtain ⟨c, -, ha⟩ := Traced.outcome_bind_eq_ok.mp ha
      cases ha
      cases hb
      split
      · exact Or.inl rfl
      · exact Or.inr ⟨rfl, rfl⟩
    · rename_i hd
      constructor
      · intro e he
        obtain ⟨e', he'⟩ := hrest.1 e he
        exact ⟨e', by rw [Traced.bind_of_error he']⟩
      · intro a b ha hb
        obtain ⟨c, hc, ha⟩ := Traced.outcome_bind_eq_ok.mp ha
        cases ha
        have hother : d = !decisive := by
          cases d <;> cases decisive <;> simp_all
        rcases hrest.2 c b hc hb with rfl | ⟨rfl, rfl⟩
        · rcases c with _ | c
          · exact Or.inl rfl
          · cases c <;> cases decisive <;> simp_all
        · exact Or.inr ⟨rfl, rfl⟩

/-- Conditions of which each firms up. -/
abbrev FirmAll (ev : Evaluator) (sub : Phrase → Eval Value) (env : Environment) (d : Bool) :
    List Phrase → List Phrase → Prop :=
  List.Forall₂ fun t u =>
    Traced.Firms (.boolean d) (value ev sub env t).run (value ev sub env u).run

theorem anyHolds_firms {ts us : List Phrase} (h : FirmAll ev sub env d ts us) :
    Traced.Firms d (anyHolds ev sub env ts) (anyHolds ev sub env us) := by
  induction h with
  | nil => exact Traced.Firms.refl d _
  | cons hfirst _ ih =>
      rw [anyHolds_cons, anyHolds_cons]
      exact combine_firms (firms_truth hfirst) ih

theorem allHold_firms {ts us : List Phrase} (h : FirmAll ev sub env d ts us) :
    Traced.Firms d (allHold ev sub env ts) (allHold ev sub env us) := by
  induction h with
  | nil => exact Traced.Firms.refl d _
  | cons hfirst _ ih =>
      rw [allHold_cons, allHold_cons]
      exact combine_firms (firms_truth hfirst) ih

end Expression

/-! ## Memberships in no roles -/

namespace Restriction

/-- Whether a phrase is a membership in the roles. -/
def IsMembership (t : Phrase) : Prop := AskRoles t.label t.children

/-- A phrase without memberships in the roles. -/
def AsksNoRoles (t : Phrase) : Prop := ∀ n ∈ t.nodes, ¬IsMembership n

/-- Memberships in the roles stand only where they count positively, or only where they
count negatively. -/
inductive Polar : Bool → Phrase → Prop
  | plain {positive : Bool} {t : Phrase} : AsksNoRoles t → Polar positive t
  | membership {t : Phrase} : IsMembership t → Polar true t
  | junction {positive : Bool} {l : Label} {ts : List Phrase} (s : Source.Span) :
      l = .and ∨ l = .or ∨ l = .brackets → (∀ t ∈ ts, Polar positive t) →
        Polar positive (.node l ts s)
  | not {positive : Bool} {t : Phrase} (s : Source.Span) : Polar (!positive) t →
      Polar positive (.node .not [t] s)

variable {c : SecurityContext}

theorem AsksNoRoles.child {l : Label} {ts : List Phrase} {s : Source.Span}
    (h : AsksNoRoles (.node l ts s)) : ∀ t ∈ ts, AsksNoRoles t :=
  fun _ ht n hn => h n (mem_nodes_of_child ht hn)

mutual

theorem AsksNoRoles.settle_eq : ∀ {t : Phrase}, AsksNoRoles t → settle c t = t
  | .node l ts s, h => by
      have hself : ¬AskRoles l ts := h _ (mem_nodes_self _)
      rw [settle_node hself, AsksNoRoles.settleAll_eq h.child]

theorem AsksNoRoles.settleAll_eq : ∀ {ts : List Phrase}, (∀ t ∈ ts, AsksNoRoles t) →
    settleAll c ts = ts
  | [], _ => rfl
  | t :: ts, h => by
      obtain ⟨ht, hts⟩ := List.forall_mem_cons.mp h
      rw [settleAll, AsksNoRoles.settle_eq ht, AsksNoRoles.settleAll_eq hts]

end

end Restriction

namespace Expression

variable {ev : Evaluator} {sub : Phrase → Eval Value} {env : Environment} {c : SecurityContext}

theorem value_alwaysFalse :
    value ev sub env alwaysFalse = Eval.ofOutcome (.ok (some (.boolean false))) := by
  have hone : Operation.integerLiteral (toString 1) = .ok (some (.integer 1)) := by rfl
  have hzero : Operation.integerLiteral (toString 0) = .ok (some (.integer 0)) := by rfl
  unfold alwaysFalse build
  rw [value_equal]
  simp only [integer, build, value, terminal?, hone, hzero]
  rfl

/-- A membership in no roles is false or undefined, unless it fails. -/
theorem membership_firms (hc : env.context? = some c) (hroles : c.roles = []) {t : Phrase}
    (h : IsMembership t) :
    Traced.Firms (.boolean false) (value ev sub env t).run
      (value ev sub env (settle c t)).run := by
  obtain ⟨l, ts, s⟩ := t
  obtain ⟨t, ds, r⟩ := h
  have hempty : c.roles.isEmpty = true := by simp [hroles]
  have hrolesValue : value ev sub env (.node (.context .roles) ds r) =
      Eval.ofOutcome (.ok (some (.collection []))) := by
    unfold value
    simp [terminal?, hc, ofContext, SecurityContext.rolesValue, hroles]
  have hmember : ∀ v : Value, anyHas ev sub env v [.node (.context .roles) ds r] =
      pure (some false) := by
    intro v
    rw [anyHas, hrolesValue]
    rfl
  rw [settle_isIn, hempty, if_pos rfl, value_alwaysFalse]
  constructor
  · intro e he
    cases he
  intro a b ha hb
  cases hb
  rw [value_isIn t (by simp)] at ha
  simp only [OptionT.run_bind] at ha
  obtain ⟨v?, -, ha⟩ := Traced.outcome_bind_eq_ok.mp ha
  rcases v? with _ | v
  · cases ha
    exact Or.inr ⟨rfl, rfl⟩
  · simp only [Option.elim_some, hmember] at ha
    split at ha
    · cases ha
      exact Or.inr ⟨rfl, rfl⟩
    · cases ha
      exact Or.inl rfl

theorem junction_firms {l : Label} (hl : l = .and ∨ l = .or ∨ l = .brackets) {d : Bool}
    {ts us : List Phrase} (h : FirmAll ev sub env d ts us) (s : Source.Span) :
    Traced.Firms (.boolean d) (value ev sub env (.node l ts s)).run
      (value ev sub env (.node l us s)).run := by
  have hcompound : l.isCompound := by
    rcases hl with rfl | rfl | rfl <;> rfl
  have hlength := List.Forall₂.length_eq h
  cases hcount : Operation.admits l ts.length with
  | false =>
      rw [value_of_not_admits hcompound hcount]
      exact ⟨fun e _ => ⟨_, rfl⟩, nofun⟩
  | true =>
      rcases hl with rfl | rfl | rfl
      · cases h with
        | nil => cases hcount
        | cons hfirst hrest =>
            rw [value_and (by simp), value_and (by simp)]
            exact firms_ofTruth (allHold_firms (.cons hfirst hrest))
      · cases h with
        | nil => cases hcount
        | cons hfirst hrest =>
            rw [value_or (by simp), value_or (by simp)]
            exact firms_ofTruth (anyHolds_firms (.cons hfirst hrest))
      · have hone : ts.length = 1 := Operation.eq_of_admits rfl hcount
        cases h with
        | nil => cases hone
        | cons hfirst hrest =>
            cases hrest with
            | cons => simp at hone
            | nil =>
                rw [value_enclosing (by simp), value_enclosing (by simp)]
                exact hfirst

/-- Where memberships count positively, taking them for false makes conditions false
that were undefined, and where they count negatively it makes them true. -/
theorem settle_firms (hc : env.context? = some c) (hroles : c.roles = []) {positive : Bool}
    {t : Phrase} (h : Polar positive t) :
    Traced.Firms (.boolean (!positive)) (value ev sub env t).run
      (value ev sub env (settle c t)).run := by
  induction h with
  | plain h =>
      rw [h.settle_eq]
      exact Traced.Firms.refl _ _
  | membership h => exact membership_firms hc hroles h
  | @junction positive l ts s hl _ ih =>
      have hne : l ≠ .isIn := by
        rcases hl with rfl | rfl | rfl <;> simp
      rw [settle_node (not_askRoles_of_isCompound hne ts)]
      refine junction_firms hl ?_ s
      clear hne
      induction ts with
      | nil => exact .nil
      | cons t ts ihts =>
          obtain ⟨ht, hts⟩ := List.forall_mem_cons.mp ih
          exact .cons ht (ihts (fun u hu => by simp_all) hts)
  | @not positive t s _ ih =>
      rw [settle_node (not_askRoles_of_isCompound (by simp) _), settleAll, settleAll, value_not,
        value_not]
      refine firms_ofTruth ?_
      rw [← bind_assoc, ← bind_assoc]
      refine (firms_truth ih).bind (fun b => Traced.Firms.refl _ _)
        (Traced.Firms.pure_of_none _ (Or.inr ?_))
      simp

theorem keeps_of_firms {d : Value} {x y : Eval Value} (h : Traced.Firms d x.run y.run) :
    Eval.Keeps x y := by
  intro a b ha hb
  rcases h.2 a b ha hb with rfl | ⟨rfl, -⟩
  · exact Settles.refl a
  · exact Settles.none b

/-- Outside of subselects, taking memberships in no roles for false changes nothing that
is decided. -/
theorem settle_keeps (hc : env.context? = some c) {P : String → Prop} {t : Phrase}
    (ht : Within P t)
    (hinside : c.roles = [] → ∀ u ∈ t.nodes, u.label = .subselect → AsksNoRoles u) :
    Eval.Keeps (value ev sub env t) (value ev sub env (settle c t)) := by
  by_cases hroles : c.roles = []
  case neg =>
    rw [settle_of_roles (by simpa using hroles)]
    exact Eval.Keeps.refl _
  replace hinside := hinside hroles
  induction ht with
  | reference ht _ =>
      rw [ht.names.unchanged.1]
      exact Eval.Keeps.refl _
  | leaf s _ =>
      rw [settle_node (by rintro ⟨⟩)]
      exact Eval.Keeps.refl _
  | subselect =>
      rw [(hinside _ (mem_nodes_self _) rfl).settle_eq]
      exact Eval.Keeps.refl _
  | @compound P l ts s hcompound _ ih =>
      by_cases hask : AskRoles l ts
      · exact keeps_of_firms (membership_firms hc hroles (t := .node l ts s) hask)
      · rw [settle_node hask]
        refine node_keeps hcompound ?_ s s
        have hall : ∀ t ∈ ts, Eval.Keeps (value ev sub env t) (value ev sub env (settle c t)) :=
          fun t ht => ih t ht fun u hu => hinside u (mem_nodes_of_child ht hu)
        clear * - hall
        induction ts with
        | nil => exact .nil
        | cons t ts ih =>
            obtain ⟨ht, hts⟩ := List.forall_mem_cons.mp hall
            exact .cons ht (ih hts)

end Expression

end RowGuard
