import RowGuard.Proofs.Answers

/-!
# Values of corresponding expressions

Corresponding expressions have the same value where the environments agree.
Over the nodes of an expression this is a matter of its children alone; over
subselects it goes by the nesting depth, one depth upon the other.
-/

namespace RowGuard

open Query (AliasDefinition Label Phrase Statement)
open Query.Phrase
open Query.Scope

/-- A phrase that takes one number of operands only has that many. -/
theorem Operation.eq_of_admits {l : Label} {n count : Nat} (h : operands l = (n, some n))
    (hcount : admits l count) : count = n := by
  simp only [admits, h, Bool.and_eq_true, decide_eq_true_eq] at hcount
  exact Nat.le_antisymm hcount.2 hcount.1

namespace Expression

variable {lenient : Prop} {ev : Evaluator} {sub sub' : Phrase → Eval Value}
variable {env env' : Environment}

/-- Children of which each has the value of its counterpart. -/
abbrev SameValues (lenient : Prop) (ev : Evaluator) (sub sub' : Phrase → Eval Value)
    (env env' : Environment) : List Phrase → List Phrase → Prop :=
  List.Forall₂ fun t u => Eval.Agree lenient (value ev sub env t) (value ev sub' env' u)

theorem values_agree {ts us : List Phrase} (h : SameValues lenient ev sub sub' env env' ts us) :
    Eval.Agree lenient (values ev sub env ts) (values ev sub' env' us) := by
  induction h with
  | nil => exact Eval.Agree.refl _
  | cons hfirst _ ih =>
      simp only [values]
      refine Eval.Agree.bind hfirst fun v _ _ => ?_
      exact Eval.Agree.bind ih fun vs _ _ => Eval.Agree.refl _

theorem truth_agree {x y : Eval Value} (h : Eval.Agree lenient x y) {α : Type}
    {f g : Option Bool → Traced α} {R : α → α → Prop}
    (hnext : ∀ b, Traced.Agree lenient R (f b) (g b)) :
    Traced.Agree lenient R
      (x.run >>= fun v => Traced.lift (Operation.truth ev.world v) >>= f)
      (y.run >>= fun v => Traced.lift (Operation.truth ev.world v) >>= g) := by
  refine Traced.Agree.bind h fun v v' _ _ heq => ?_
  subst heq
  refine Traced.Agree.bind (Traced.Agree.refl (R := Eq) (fun _ => rfl) _) fun b b' _ _ heq => ?_
  subst heq
  exact hnext b

theorem anyHolds_agree {ts us : List Phrase}
    (h : SameValues lenient ev sub sub' env env' ts us) :
    Traced.Agree lenient Eq (anyHolds ev sub env ts) (anyHolds ev sub' env' us) := by
  induction h with
  | nil => exact Traced.Agree.pure rfl
  | cons hfirst _ ih =>
      simp only [anyHolds]
      refine truth_agree hfirst fun b => ?_
      match b with
      | some true => exact Traced.Agree.pure rfl
      | some false => exact ih
      | none =>
          refine Traced.Agree.bind ih fun b b' _ _ heq => ?_
          subst heq
          exact Traced.Agree.refl (fun _ => rfl) _

theorem allHold_agree {ts us : List Phrase}
    (h : SameValues lenient ev sub sub' env env' ts us) :
    Traced.Agree lenient Eq (allHold ev sub env ts) (allHold ev sub' env' us) := by
  induction h with
  | nil => exact Traced.Agree.pure rfl
  | cons hfirst _ ih =>
      simp only [allHold]
      refine truth_agree hfirst fun b => ?_
      match b with
      | some false => exact Traced.Agree.pure rfl
      | some true => exact ih
      | none =>
          refine Traced.Agree.bind ih fun b b' _ _ heq => ?_
          subst heq
          exact Traced.Agree.refl (fun _ => rfl) _

theorem anyHas_agree (v : Value) {ts us : List Phrase}
    (h : SameValues lenient ev sub sub' env env' ts us) :
    Traced.Agree lenient Eq (anyHas ev sub env v ts) (anyHas ev sub' env' v us) := by
  induction h with
  | nil => exact Traced.Agree.pure rfl
  | cons hfirst _ ih =>
      simp only [anyHas]
      refine Traced.Agree.bind hfirst fun found? found'? _ _ heq => ?_
      subst heq
      match found? with
      | some found =>
          simp only
          split
          · exact Traced.Agree.pure rfl
          · exact ih
      | none =>
          refine Traced.Agree.bind ih fun b b' _ _ heq => ?_
          subst heq
          exact Traced.Agree.refl (fun _ => rfl) _

/-! ## Nodes -/

theorem terminal?_of_isCompound {l : Label} (hcompound : l.isCompound) (env : Environment) :
    terminal? env l = none := by
  cases l <;> first | rfl | cases hcompound

theorem value_of_not_admits {l : Label} (hcompound : l.isCompound) {cs : List Phrase}
    (hcount : Operation.admits l cs.length = false) (s : Source.Span) :
    value ev sub env (.node l cs s) =
      Eval.fail (.violation (.operandCount l cs.length)) := by
  unfold value
  simp [terminal?_of_isCompound hcompound, hcount]

/-- The labels whose operands are not all evaluated in the same way. -/
def isSpecial : Label → Bool
  | .whereClause | .havingClause | .brackets | .or | .and | .not | .compare .equal
  | .between | .isIn | .subselect | .path => true
  | _ => false

theorem value_of_admits {l : Label} (hcompound : l.isCompound) (hspecial : isSpecial l = false)
    {cs : List Phrase} (hcount : Operation.admits l cs.length) (s : Source.Span) :
    value ev sub env (.node l cs s) =
      if Operation.isOperation l then
        values ev sub env cs >>= fun vs => Eval.ofOutcome (Operation.apply ev.world l vs)
      else Eval.fail (Operation.refusal l) := by
  unfold value
  simp only [terminal?_of_isCompound hcompound, hcount, if_true]
  split <;> first | cases hspecial | rfl

theorem value_or {cs : List Phrase} (hcs : cs ≠ []) (s : Source.Span) :
    value ev sub env (.node .or cs s) = Eval.ofTruth (anyHolds ev sub env cs) := by
  have hcount : 1 ≤ cs.length := List.length_pos_iff.mpr hcs
  simp [value, terminal?, Operation.admits, Operation.operands, hcount]

theorem value_and {cs : List Phrase} (hcs : cs ≠ []) (s : Source.Span) :
    value ev sub env (.node .and cs s) = Eval.ofTruth (allHold ev sub env cs) := by
  have hcount : 1 ≤ cs.length := List.length_pos_iff.mpr hcs
  simp [value, terminal?, Operation.admits, Operation.operands, hcount]

theorem value_not (c : Phrase) (s : Source.Span) :
    value ev sub env (.node .not [c] s) = Eval.ofTruth (do
      let v ← (value ev sub env c).run
      return (← Traced.lift (Operation.truth ev.world v)).map Bool.not) := by
  simp [value, terminal?, Operation.admits, Operation.operands]

theorem value_equal (left right : Phrase) (s : Source.Span) :
    value ev sub env (.node (.compare .equal) [left, right] s) = (do
      let l ← value ev sub env left
      if l.isNull then return .boolean false
      let r ← value ev sub env right
      Eval.ofOutcome (Operation.compare ev.world .equal l r)) := by
  simp [value, terminal?, Operation.admits, Operation.operands]

theorem value_between (c lower upper : Phrase) (s : Source.Span) :
    value ev sub env (.node .between [c, lower, upper] s) = (do
      let v ← value ev sub env c
      if v.isNull then Eval.undefined
      else Eval.ofTruth do
        let low ← (value ev sub env lower).run
        let high ← (value ev sub env upper).run
        return Operation.isBetween v low high) := by
  simp [value, terminal?, Operation.admits, Operation.operands]

theorem value_isIn (c : Phrase) {items : List Phrase} (hitems : items ≠ []) (s : Source.Span) :
    value ev sub env (.node .isIn (c :: items) s) = (do
      let v ← value ev sub env c
      if v.isNull then Eval.undefined else Eval.ofTruth (anyHas ev sub env v items)) := by
  have hcount : 1 ≤ items.length := List.length_pos_iff.mpr hitems
  simp [value, terminal?, Operation.admits, Operation.operands, hcount]

theorem value_subselect (cs : List Phrase) (s : Source.Span) :
    value ev sub env (.node .subselect cs s) = sub (.node .subselect cs s) := by
  simp [value, terminal?, Operation.admits, Operation.operands]

/-- A child by itself. -/
theorem SameValues.singleton {ts us : List Phrase}
    (h : SameValues lenient ev sub sub' env env' ts us) (hlength : ts.length = 1) :
    ∃ t u, ts = [t] ∧ us = [u] ∧
      Eval.Agree lenient (value ev sub env t) (value ev sub' env' u) := by
  cases h with
  | nil => cases hlength
  | cons hfirst hrest =>
      cases hrest with
      | nil => exact ⟨_, _, rfl, rfl, hfirst⟩
      | cons => simp at hlength

theorem SameValues.pair {ts us : List Phrase}
    (h : SameValues lenient ev sub sub' env env' ts us) (hlength : ts.length = 2) :
    ∃ t u, ∃ ts' us', ts = t :: ts' ∧ us = u :: us' ∧
      Eval.Agree lenient (value ev sub env t) (value ev sub' env' u) ∧
      SameValues lenient ev sub sub' env env' ts' us' ∧ ts'.length = 1 := by
  cases h with
  | nil => cases hlength
  | cons hfirst hrest => exact ⟨_, _, _, _, rfl, rfl, hfirst, hrest, by simpa using hlength⟩

theorem enclosing_agree {l : Label}
    (hl : l = .whereClause ∨ l = .havingClause ∨ l = .brackets) {ts us : List Phrase}
    (hlength : ts.length = 1) (h : SameValues lenient ev sub sub' env env' ts us)
    (s s' : Source.Span) :
    Eval.Agree lenient (value ev sub env (.node l ts s)) (value ev sub' env' (.node l us s')) := by
  obtain ⟨t, u, rfl, rfl, hvalue⟩ := h.singleton hlength
  rw [value_enclosing hl, value_enclosing hl]
  exact hvalue

theorem not_agree {ts us : List Phrase} (hlength : ts.length = 1)
    (h : SameValues lenient ev sub sub' env env' ts us) (s s' : Source.Span) :
    Eval.Agree lenient (value ev sub env (.node .not ts s))
      (value ev sub' env' (.node .not us s')) := by
  obtain ⟨t, u, rfl, rfl, hvalue⟩ := h.singleton hlength
  rw [value_not, value_not]
  exact Eval.Agree.ofTruth (truth_agree hvalue fun b => Traced.Agree.pure rfl)

theorem equal_agree {ts us : List Phrase} (hlength : ts.length = 2)
    (h : SameValues lenient ev sub sub' env env' ts us) (s s' : Source.Span) :
    Eval.Agree lenient (value ev sub env (.node (.compare .equal) ts s))
      (value ev sub' env' (.node (.compare .equal) us s')) := by
  obtain ⟨t, u, ts', us', rfl, rfl, hleft, hrest, hlength'⟩ := h.pair hlength
  obtain ⟨t', u', rfl, rfl, hright⟩ := hrest.singleton hlength'
  rw [value_equal, value_equal]
  refine Eval.Agree.bind hleft fun l _ _ => ?_
  by_cases hnull : l.isNull
  · simp only [hnull, if_true]
    exact Eval.Agree.refl _
  · simp only [hnull]
    exact Eval.Agree.bind hright fun r _ _ => Eval.Agree.refl _

theorem between_agree {ts us : List Phrase} (hlength : ts.length = 3)
    (h : SameValues lenient ev sub sub' env env' ts us) (s s' : Source.Span) :
    Eval.Agree lenient (value ev sub env (.node .between ts s))
      (value ev sub' env' (.node .between us s')) := by
  cases h with
  | nil => cases hlength
  | @cons c c' ts us hfirst hrest =>
      obtain ⟨t, u, ts', us', rfl, rfl, hlower, hrest, hlength'⟩ :=
        SameValues.pair hrest (by simpa using hlength)
      obtain ⟨t', u', rfl, rfl, hupper⟩ := SameValues.singleton hrest hlength'
      rw [value_between, value_between]
      refine Eval.Agree.bind hfirst fun v _ _ => ?_
      split
      · exact Eval.Agree.refl _
      · refine Eval.Agree.ofTruth (Traced.Agree.bind hlower fun low low' _ _ heq => ?_)
        subst heq
        refine Traced.Agree.bind hupper fun high high' _ _ heq => ?_
        subst heq
        exact Traced.Agree.pure rfl

theorem isIn_agree {c c' : Phrase} {items items' : List Phrase} (hitems : items ≠ [])
    (hitems' : items' ≠ [])
    (hfirst : Eval.Agree lenient (value ev sub env c) (value ev sub' env' c'))
    (h : ∀ v : Value, v.isNull = false →
      Traced.Agree lenient Eq (anyHas ev sub env v items) (anyHas ev sub' env' v items'))
    (s s' : Source.Span) :
    Eval.Agree lenient (value ev sub env (.node .isIn (c :: items) s))
      (value ev sub' env' (.node .isIn (c' :: items') s')) := by
  rw [value_isIn c hitems, value_isIn c' hitems']
  refine Eval.Agree.bind hfirst fun v _ _ => ?_
  by_cases hnull : v.isNull
  · simp only [hnull, if_true]
    exact Eval.Agree.refl _
  · simp only [hnull]
    exact Eval.Agree.ofTruth (h v (by simpa using hnull))

/-- A node has the value of its counterpart if its children have. -/
theorem node_agree {l : Label} (hcompound : l.isCompound) {ts us : List Phrase}
    (h : SameValues lenient ev sub sub' env env' ts us) (s s' : Source.Span) :
    Eval.Agree lenient (value ev sub env (.node l ts s)) (value ev sub' env' (.node l us s')) := by
  have hlength := h.length_eq
  cases hcount : Operation.admits l ts.length with
  | false =>
      rw [value_of_not_admits hcompound hcount,
        value_of_not_admits hcompound (hlength ▸ hcount), hlength]
      exact Eval.Agree.refl _
  | true =>
      cases hspecial : isSpecial l with
      | false =>
          rw [value_of_admits hcompound hspecial hcount,
            value_of_admits hcompound hspecial (hlength ▸ hcount)]
          split
          · exact Eval.Agree.bind (values_agree h) fun vs _ _ => Eval.Agree.refl _
          · exact Eval.Agree.refl _
      | true =>
          have hne : 1 ≤ ts.length → ts ≠ [] ∧ us ≠ [] := by
            intro hle
            exact ⟨List.length_pos_iff.mp hle, List.length_pos_iff.mp (hlength ▸ hle)⟩
          cases l with
          | whereClause => exact enclosing_agree (by simp) (Operation.eq_of_admits rfl hcount) h s s'
          | havingClause => exact enclosing_agree (by simp) (Operation.eq_of_admits rfl hcount) h s s'
          | brackets => exact enclosing_agree (by simp) (Operation.eq_of_admits rfl hcount) h s s'
          | not => exact not_agree (Operation.eq_of_admits rfl hcount) h s s'
          | compare op =>
              cases op with
              | equal => exact equal_agree (Operation.eq_of_admits rfl hcount) h s s'
              | _ => cases hspecial
          | between => exact between_agree (Operation.eq_of_admits rfl hcount) h s s'
          | or =>
              obtain ⟨hts, hus⟩ := hne (by simpa [Operation.admits, Operation.operands] using hcount)
              rw [value_or hts, value_or hus]
              exact Eval.Agree.ofTruth (anyHolds_agree h)
          | and =>
              obtain ⟨hts, hus⟩ := hne (by simpa [Operation.admits, Operation.operands] using hcount)
              rw [value_and hts, value_and hus]
              exact Eval.Agree.ofTruth (allHold_agree h)
          | isIn =>
              cases h with
              | nil => cases hcount
              | @cons c c' items items' hfirst hrest =>
                  have hitems : items ≠ [] := by rintro rfl; cases hcount
                  have hitems' : items' ≠ [] := by
                    rintro rfl
                    cases hrest
                    exact hitems rfl
                  exact isIn_agree hitems hitems' hfirst (fun v _ => anyHas_agree v hrest) s s'
          | subselect => cases hcompound
          | path => cases hcompound
          | _ => cases hspecial

end Expression

/-! ## Roles -/

theorem World.same_null (w : World) {v : Value} (hv : v.isNull = false) :
    w.same v .null = false := by
  cases v with
  | null => cases hv
  | _ => simp [World.same, Value.agree, Value.toDecimal?]

theorem World.member_items (w : World) {v role : Value} (hv : v.isNull = false)
    (hrole : ∀ items, role ≠ .collection items) : w.member v role.items = w.same v role := by
  cases role with
  | null => rw [w.same_null hv]; rfl
  | collection items => exact absurd rfl (hrole items)
  | _ => simp [World.member, Value.items]

namespace Expression

variable {lenient : Prop} {ev : Evaluator} {sub sub' : Phrase → Eval Value}
variable {env env' : Environment}

/-- A leaf has the value that the environment gives its label. -/
theorem value_leaf {l : Label} (hleaf : l.isLeaf) (env : Environment) (s : Source.Span) :
    ∃ outcome, terminal? env l = some outcome ∧ ∀ sub : Phrase → Eval Value,
      value ev sub env (.node l [] s) = Eval.ofOutcome outcome := by
  cases l <;> first
    | exact absurd hleaf Bool.false_ne_true
    | exact ⟨_, rfl, fun sub => by simp [value, terminal?]⟩

theorem value_namedParameter (name : String) :
    value ev sub env (namedParameter name) = Eval.ofOutcome (.ok (env.named? name)) := by
  simp [namedParameter, build, value, terminal?]

/-- Membership in the roles, each a parameter of its own. -/
theorem anyHas_names {v : Value} (hv : v.isNull = false) {names : List String}
    {roles : List Value} (hnames : names.map env.named? = roles.map some)
    (hroles : ∀ role ∈ roles, ∀ items, role ≠ .collection items) :
    anyHas ev sub env v (names.map namedParameter) = pure (some (ev.world.member v roles)) := by
  induction names generalizing roles with
  | nil =>
      cases roles with
      | nil => rfl
      | cons role roles => cases hnames
  | cons name names ih =>
      cases roles with
      | nil => cases hnames
      | cons role roles =>
          simp only [List.map_cons, List.cons.injEq] at hnames
          have hrest := ih hnames.2 fun r hr => hroles r (List.mem_cons_of_mem role hr)
          have hmember := ev.world.member_items hv (hroles role (by simp))
          rw [List.map_cons, anyHas, value_namedParameter, hnames.1]
          show (if ev.world.member v role.items = true then _ else _) = _
          rw [hmember, hrest]
          cases hsame : ev.world.same v role <;> simp [World.member, hsame]

theorem anyHas_context {v : Value} {c : SecurityContext} (hcontext : env.context? = some c)
    (s : Source.Span) :
    anyHas ev sub env v [.node (.context .roles) [] s] =
      pure (some (ev.world.member v c.roles)) := by
  have hvalue : value ev sub env (.node (.context .roles) [] s) =
      Eval.ofOutcome (.ok (some c.rolesValue)) := by
    simp [value, terminal?, hcontext, ofContext]
  rw [anyHas, hvalue]
  show (if ev.world.member v c.roles = true then _ else _) = _
  cases ev.world.member v c.roles <;> simp [anyHas]

end Expression

/-! ## Expressions -/

section Expressions

variable {lenient : Prop} {ev : Evaluator} {k : Link} {ρ : Pairs}
variable {env env' : Environment} {sub sub' : Phrase → Eval Value}

/-- Corresponding subselects are answered alike. -/
def SubselectsAgree (lenient : Prop) (k : Link) (i j : Nat) (ρ : Pairs)
    (sub sub' : Phrase → Eval Value) : Prop :=
  ∀ t u : Phrase, Corresponds k i j ρ t u → t.label = .subselect →
    Eval.Agree lenient (sub t) (sub' u)

mutual

/-- Corresponding expressions have the same value in agreeing environments. -/
theorem Corresponds.value_agree (henv : EnvironmentsAgree lenient ev k ρ env env') :
    ∀ {i j : Nat} {t u : Phrase}, Corresponds k i j ρ t u →
    SubselectsAgree lenient k i j ρ sub sub' →
    Eval.Agree lenient (Expression.value ev sub env t) (Expression.value ev sub' env' u)
  | _, _, _, _, .reference ht hu href, _ => by
      rw [Expression.value_reference ev sub env ht, Expression.value_reference ev sub' env' hu,
        henv.referenceValue href]
      exact Eval.Agree.refl _
  | _, _, _, _, .leaf s s' hl hm hleaf, _ => by
      have hterminal := henv.leaf _ _ hl hm hleaf
      obtain ⟨outcome, hleft, hvalue₁⟩ := Expression.value_leaf hl env s
      obtain ⟨outcome', hright, hvalue₂⟩ := Expression.value_leaf hm env' s'
      rw [hleft, hright] at hterminal
      cases hterminal
      rw [hvalue₁, hvalue₂]
      exact Eval.Agree.refl _
  | _, _, _, _, .roles s s' r h hroles hne, hsub => by
      obtain ⟨c, hcontext, hnames, hplain⟩ := henv.roles _ hroles
      refine Expression.isIn_agree (by simp) (by simpa using hne) (Corresponds.value_agree henv h hsub)
        (fun v hv => ?_) s s'
      rw [Expression.anyHas_context hcontext, Expression.anyHas_names hv hnames hplain]
      exact Traced.Agree.pure rfl
  | _, _, _, _, .subselect distinct s₁ s₂ s₃ s₁' s₂' s₃' hranges hjoins hselect hrest hfinal
      hexact, hsub => by
      rw [Expression.value_subselect, Expression.value_subselect]
      exact hsub _ _ (.subselect distinct s₁ s₂ s₃ s₁' s₂' s₃' hranges hjoins hselect hrest
        hfinal hexact) rfl
  | _, _, _, _, .compound s s' hcompound h, hsub =>
      Expression.node_agree hcompound (AllCorrespond.values_agree henv h hsub) s s'

theorem AllCorrespond.values_agree (henv : EnvironmentsAgree lenient ev k ρ env env') :
    ∀ {i j : Nat} {ts us : List Phrase}, AllCorrespond k i j ρ ts us →
    SubselectsAgree lenient k i j ρ sub sub' →
    Expression.SameValues lenient ev sub sub' env env' ts us
  | _, _, _, _, .nil, _ => .nil
  | _, _, _, _, .cons h hs, hsub => .cons (Corresponds.value_agree henv h hsub) (AllCorrespond.values_agree henv hs hsub)

end

end Expressions

end RowGuard
