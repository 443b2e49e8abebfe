import RowGuard.Proofs.Settling

/-!
# Objects that do not fit

That an object does not fit the mapping is a fault of its own, and it is found
where a path is followed.  An operation may refuse its operands, but never for
that reason, and whatever goes by the results of its operands passes their faults
on and adds none of this kind.  So an expression lands safely if its references
and its subselects do.
-/

namespace RowGuard

open Query (Label Phrase)

variable {α β : Type}

/-- Whether a fault says that an object does not fit the mapping. -/
def Fault.isMisfit : Fault → Bool
  | .mapping _ => true
  | _ => false

namespace Outcome

/-- An outcome is a result of a kind, or a fault other than a misfit. -/
def Lands (P : α → Prop) : Except Fault α → Prop
  | .ok a => P a
  | .error e => e.isMisfit = false

/-- An outcome that is no misfit. -/
abbrev Safe (x : Except Fault α) : Prop := Lands (fun _ => True) x

variable {P : α → Prop} {Q : β → Prop}

theorem Lands.mono {P' : α → Prop} {x : Except Fault α} (h : Lands P x)
    (hP : ∀ a, P a → P' a) : Lands P' x := by
  cases x with
  | error e => exact h
  | ok a => exact hP a h

theorem Lands.bind {x : Except Fault α} {f : α → Except Fault β} (h : Lands P x)
    (hnext : ∀ a, P a → Lands Q (f a)) : Lands Q (x >>= f) := by
  cases x with
  | error e => exact h
  | ok a => exact hnext a h

theorem Safe.mapM {f : α → Except Fault β} {as : List α} (h : ∀ a ∈ as, Safe (f a)) :
    Safe (as.mapM f) := by
  induction as with
  | nil => exact trivial
  | cons a as ih =>
      obtain ⟨ha, has⟩ := List.forall_mem_cons.mp h
      rw [List.mapM_cons]
      apply Lands.bind ha
      intro b _
      exact Lands.bind (ih has) fun _ _ => trivial

/-- What is known of the result of a safe outcome may be used behind it. -/
theorem Safe.lands {x : Except Fault α} (h : Safe x) (hP : ∀ a, x = .ok a → P a) :
    Lands P x := by
  cases x with
  | error e => exact h
  | ok a => exact hP a rfl

end Outcome

namespace Traced

/-- A computation that comes to a result of a kind, or to a fault other than a misfit. -/
def Lands (P : α → Prop) (x : Traced α) : Prop := Outcome.Lands P x.outcome

abbrev Safe (x : Traced α) : Prop := Lands (fun _ => True) x

variable {P : α → Prop} {Q : β → Prop}

theorem Lands.pure {a : α} (h : P a) : Lands P (pure a : Traced α) := h

theorem Lands.mono {P' : α → Prop} {x : Traced α} (h : Lands P x) (hP : ∀ a, P a → P' a) :
    Lands P' x :=
  Outcome.Lands.mono h hP

theorem Lands.bind {x : Traced α} {f : α → Traced β} (h : Lands P x)
    (hnext : ∀ a, P a → Lands Q (f a)) : Lands Q (x >>= f) := by
  unfold Lands at *
  rw [outcome_bind]
  exact Outcome.Lands.bind h hnext

theorem Lands.foldlM {f : α → β → Traced α} {bs : List β} {a : α} (ha : P a)
    (h : ∀ a, P a → ∀ b ∈ bs, Lands P (f a b)) : Lands P (bs.foldlM f a) := by
  induction bs generalizing a with
  | nil => exact ha
  | cons b bs ih =>
      rw [List.foldlM_cons]
      apply Lands.bind (h a ha b (by simp))
      intro c hc
      exact ih hc fun a ha b hb => h a ha b (List.mem_cons_of_mem _ hb)

end Traced

namespace Eval

/-- An evaluation that comes to a value or to nothing, or to a fault other than a misfit. -/
abbrev Safe (x : Eval α) : Prop := Traced.Safe x.run

theorem Safe.bind {x : Eval α} {f : α → Eval β} (h : Safe x) (hnext : ∀ a, Safe (f a)) :
    Safe (x >>= f) := by
  show Traced.Safe (x >>= f).run
  rw [OptionT.run_bind]
  apply Traced.Lands.bind h
  intro a? _
  cases a? with
  | none => exact trivial
  | some a => exact hnext a

theorem Safe.ofTruth {x : Traced (Option Bool)} (h : Traced.Safe x) : Safe (ofTruth x) :=
  Traced.Lands.bind h fun _ _ => trivial

end Eval

/-! ## Operations -/

section Operations

variable {w : World}

theorem Arithmetic.safe_decimal (operation : String) (v : Value) :
    Outcome.Safe (decimal w operation v) := by
  unfold decimal
  split
  · exact trivial
  · rfl

theorem Arithmetic.safe_binary (op : Query.ArithmeticOperator) (left right : Value) :
    Outcome.Safe (binary w op left right) := by
  unfold binary
  split
  · exact trivial
  split
  · exact trivial
  apply Outcome.Lands.bind (safe_decimal _ left)
  intro x _
  apply Outcome.Lands.bind (safe_decimal _ right)
  intro y _
  cases op with
  | divide =>
      simp only [onDecimals]
      split <;> exact trivial
  | _ => exact trivial

theorem Arithmetic.safe_negate (v : Value) : Outcome.Safe (negate w v) := by
  unfold negate
  split
  · exact trivial
  · exact trivial
  · exact Outcome.Lands.bind (safe_decimal _ _) fun _ _ => trivial

theorem Arithmetic.safe_modulo (left right : Value) : Outcome.Safe (modulo w left right) := by
  unfold modulo
  split
  · exact trivial
  split
  · split <;> exact trivial
  · apply Outcome.Lands.bind (safe_decimal _ left)
    intro x _
    apply Outcome.Lands.bind (safe_decimal _ right)
    intro y _
    split <;> exact trivial

theorem Arithmetic.safe_abs (v : Value) : Outcome.Safe (abs w v) := by
  unfold abs
  split
  · exact trivial
  · exact trivial
  · exact Outcome.Lands.bind (safe_decimal _ _) fun _ _ => trivial

theorem Arithmetic.safe_sqrt (v : Value) : Outcome.Safe (sqrt w v) := by
  unfold sqrt
  split
  · exact trivial
  · exact Outcome.Lands.bind (safe_decimal _ v) fun _ _ => trivial

theorem Strings.safe_text (function : String) (v : Value) : Outcome.Safe (text w function v) := by
  unfold text
  split <;> first | exact trivial | rfl

theorem Strings.safe_integer (function : String) (v : Value) :
    Outcome.Safe (integer w function v) := by
  unfold integer
  split
  · exact trivial
  · split
    · exact trivial
    · rfl
  · rfl

theorem Strings.safe_character (function : String) (v : Value) :
    Outcome.Safe (character w function v) := by
  apply Outcome.Lands.bind (safe_text function v)
  intro s _
  split
  · exact trivial
  · rfl

theorem Strings.safe_concat (vs : List Value) : Outcome.Safe (concat w vs) := by
  unfold concat
  split
  · exact trivial
  · exact Outcome.Lands.bind (Outcome.Safe.mapM fun v _ => safe_text _ v) fun _ _ => trivial

theorem Strings.safe_substring (v start : Value) (length? : Option Value) :
    Outcome.Safe (substring w v start length?) := by
  unfold substring
  split
  · exact trivial
  apply Outcome.Lands.bind (safe_text _ v)
  intro s _
  apply Outcome.Lands.bind (safe_integer _ start)
  intro n _
  cases length? with
  | none => exact trivial
  | some length => exact Outcome.Lands.bind (safe_integer _ length) fun _ _ => trivial

theorem Strings.safe_trim (side? : Option Query.TrimSide) (character? : Option Value) (v : Value) :
    Outcome.Safe (trim w side? character? v) := by
  have htext : ∀ c, Outcome.Safe (do
      let s ← text w "TRIM" v
      giveText (String.ofList (trimAt (side?.getD .both) c s.toList))) :=
    fun c => Outcome.Lands.bind (safe_text _ v) fun _ _ => trivial
  unfold trim
  split
  · exact trivial
  · cases character? with
    | none => exact htext ' '
    | some c => exact Outcome.Lands.bind (safe_character _ c) fun d _ => htext d

theorem Strings.safe_upper (v : Value) : Outcome.Safe (upper w v) := by
  unfold upper
  split
  · exact trivial
  · exact Outcome.Lands.bind (safe_text _ v) fun _ _ => trivial

theorem Strings.safe_lower (v : Value) : Outcome.Safe (lower w v) := by
  unfold lower
  split
  · exact trivial
  · exact Outcome.Lands.bind (safe_text _ v) fun _ _ => trivial

theorem Strings.safe_length (v : Value) : Outcome.Safe (length w v) := by
  unfold length
  split
  · exact trivial
  · exact Outcome.Lands.bind (safe_text _ v) fun _ _ => trivial

theorem Strings.safe_locate (searched v : Value) (start? : Option Value) :
    Outcome.Safe (locate w searched v start?) := by
  unfold locate
  split
  · exact trivial
  apply Outcome.Lands.bind (safe_text _ searched)
  intro needle _
  apply Outcome.Lands.bind (safe_text _ v)
  intro s _
  cases start? with
  | none => exact trivial
  | some start => exact Outcome.Lands.bind (safe_integer _ start) fun _ _ => trivial

theorem Strings.safe_like (v pattern : Value) (escape? : Option Value) :
    Outcome.Safe (like w v pattern escape?) := by
  unfold like
  dsimp only
  split
  · split <;> exact trivial
  · exact trivial
  · apply Outcome.Lands.bind (safe_character "ESCAPE" _)
    intro escape _
    split <;> exact trivial

theorem Operation.safe_compare (op : Query.Comparison) (left right : Value) :
    Outcome.Safe (compare w op left right) := by
  unfold compare
  split
  · exact trivial
  · split <;> exact trivial
  · split <;> exact trivial

theorem Operation.isMisfit_refusal (l : Label) : (refusal l).isMisfit = false := by
  cases l <;> rfl

/-- No operation takes an operand for an object that does not fit. -/
theorem Operation.safe_apply (l : Label) (vs : List Value) : Outcome.Safe (apply w l vs) := by
  unfold apply
  split
  · exact safe_compare _ _ _
  · exact trivial
  · exact trivial
  · exact trivial
  · exact trivial
  · exact Strings.safe_like _ _ _
  · exact Strings.safe_like _ _ _
  · exact Arithmetic.safe_binary _ _ _
  · exact Arithmetic.safe_negate _
  · exact Arithmetic.safe_modulo _ _
  · exact Arithmetic.safe_abs _
  · exact Arithmetic.safe_sqrt _
  · exact trivial
  · exact Strings.safe_concat _
  · exact Strings.safe_substring _ _ _
  · exact Strings.safe_substring _ _ _
  · exact Strings.safe_trim _ _ _
  · exact Strings.safe_trim _ _ _
  · exact Strings.safe_upper _
  · exact Strings.safe_lower _
  · exact Strings.safe_length _
  · exact Strings.safe_locate _ _ _
  · exact Strings.safe_locate _ _ _
  · exact isMisfit_refusal _

theorem Operation.safe_truth (v? : Option Value) : Outcome.Safe (truth w v?) := by
  unfold truth
  split
  · exact trivial
  · exact trivial
  · exact trivial
  · rfl

theorem Operation.safe_decimalLiteral (text : String) : Outcome.Safe (decimalLiteral text) := by
  unfold decimalLiteral
  split
  · exact trivial
  · rfl

theorem Operation.safe_integerLiteral (text : String) : Outcome.Safe (integerLiteral text) := by
  unfold integerLiteral
  split
  · exact trivial
  · exact safe_decimalLiteral text

end Operations

/-! ## Expressions -/

namespace Expression

variable {ev : Evaluator} {sub : Phrase → Eval Value} {env : Environment} {ts : List Phrase}

theorem safe_terminal {l : Label} {outcome : Except Fault (Option Value)}
    (h : terminal? env l = some outcome) : Outcome.Safe outcome := by
  cases l with
  | integerLiteral text =>
      cases h
      exact Operation.safe_integerLiteral text
  | decimalLiteral text =>
      cases h
      exact Operation.safe_decimalLiteral text
  | _ => first
      | (cases h; exact trivial)
      | cases h

theorem safe_values (h : ∀ t ∈ ts, Eval.Safe (value ev sub env t)) :
    Eval.Safe (values ev sub env ts) := by
  induction ts with
  | nil => exact trivial
  | cons t ts ih =>
      obtain ⟨ht, hts⟩ := List.forall_mem_cons.mp h
      rw [values]
      apply Eval.Safe.bind ht
      intro v
      exact Eval.Safe.bind (ih hts) fun _ => trivial

theorem safe_truthOf {x : Eval Value} (h : Eval.Safe x) {f : Option Bool → Traced α}
    (hnext : ∀ b, Traced.Safe (f b)) :
    Traced.Safe (x.run >>= fun v => Traced.lift (Operation.truth ev.world v) >>= f) := by
  apply Traced.Lands.bind h
  intro v? _
  exact Traced.Lands.bind (P := fun _ => True) (Operation.safe_truth v?) fun b _ => hnext b

theorem safe_anyHolds (h : ∀ t ∈ ts, Eval.Safe (value ev sub env t)) :
    Traced.Safe (anyHolds ev sub env ts) := by
  induction ts with
  | nil => exact trivial
  | cons t ts ih =>
      obtain ⟨ht, hts⟩ := List.forall_mem_cons.mp h
      rw [anyHolds]
      apply safe_truthOf ht
      intro b
      rcases b with _ | _ | _
      · apply Traced.Lands.bind (ih hts)
        intro c _
        split <;> exact trivial
      · exact ih hts
      · exact trivial

theorem safe_allHold (h : ∀ t ∈ ts, Eval.Safe (value ev sub env t)) :
    Traced.Safe (allHold ev sub env ts) := by
  induction ts with
  | nil => exact trivial
  | cons t ts ih =>
      obtain ⟨ht, hts⟩ := List.forall_mem_cons.mp h
      rw [allHold]
      apply safe_truthOf ht
      intro b
      rcases b with _ | _ | _
      · apply Traced.Lands.bind (ih hts)
        intro c _
        split <;> exact trivial
      · exact trivial
      · exact ih hts

theorem safe_anyHas (v : Value) (h : ∀ t ∈ ts, Eval.Safe (value ev sub env t)) :
    Traced.Safe (anyHas ev sub env v ts) := by
  induction ts with
  | nil => exact trivial
  | cons t ts ih =>
      obtain ⟨ht, hts⟩ := List.forall_mem_cons.mp h
      rw [anyHas]
      apply Traced.Lands.bind ht
      intro found? _
      cases found? with
      | none =>
          apply Traced.Lands.bind (ih hts)
          intro c _
          split <;> exact trivial
      | some found =>
          dsimp only
          split
          · exact trivial
          · exact ih hts

/-! ## Nodes -/

theorem safe_enclosing {l : Label}
    (hl : l = .whereClause ∨ l = .havingClause ∨ l = .brackets) (hlength : ts.length = 1)
    (h : ∀ t ∈ ts, Eval.Safe (value ev sub env t)) (s : Source.Span) :
    Eval.Safe (value ev sub env (.node l ts s)) := by
  obtain ⟨t, rfl⟩ := List.length_eq_one_iff.mp hlength
  rw [value_enclosing hl]
  exact h t (by simp)

theorem safe_equal {left right : Phrase} (hleft : Eval.Safe (value ev sub env left))
    (hright : Eval.Safe (value ev sub env right)) (s : Source.Span) :
    Eval.Safe (value ev sub env (.node (.compare .equal) [left, right] s)) := by
  rw [value_equal]
  apply Eval.Safe.bind hleft
  intro l
  split
  · exact trivial
  · exact Eval.Safe.bind hright fun r => Operation.safe_compare .equal l r

theorem safe_between {t lower upper : Phrase} (h : Eval.Safe (value ev sub env t))
    (hlower : Eval.Safe (value ev sub env lower)) (hupper : Eval.Safe (value ev sub env upper))
    (s : Source.Span) :
    Eval.Safe (value ev sub env (.node .between [t, lower, upper] s)) := by
  rw [value_between]
  apply Eval.Safe.bind h
  intro v
  split
  · exact trivial
  · apply Eval.Safe.ofTruth
    apply Traced.Lands.bind hlower
    intro low _
    exact Traced.Lands.bind hupper fun _ _ => trivial

theorem safe_isIn {t : Phrase} {items : List Phrase} (hitems : items ≠ [])
    (h : Eval.Safe (value ev sub env t))
    (hrest : ∀ u ∈ items, Eval.Safe (value ev sub env u)) (s : Source.Span) :
    Eval.Safe (value ev sub env (.node .isIn (t :: items) s)) := by
  rw [value_isIn t hitems]
  apply Eval.Safe.bind h
  intro v
  split
  · exact trivial
  · exact Eval.Safe.ofTruth (safe_anyHas v hrest)

/-- A node is safe if its children are. -/
theorem safe_node {l : Label} (hcompound : l.isCompound)
    (h : ∀ t ∈ ts, Eval.Safe (value ev sub env t)) (s : Source.Span) :
    Eval.Safe (value ev sub env (.node l ts s)) := by
  cases hcount : Operation.admits l ts.length with
  | false =>
      rw [value_of_not_admits hcompound hcount]
      rfl
  | true =>
      cases hspecial : isSpecial l with
      | false =>
          rw [value_of_admits hcompound hspecial hcount]
          split
          · exact Eval.Safe.bind (safe_values h) fun vs => Operation.safe_apply l vs
          · exact Operation.isMisfit_refusal l
      | true =>
          cases l with
          | whereClause => exact safe_enclosing (by simp) (Operation.eq_of_admits rfl hcount) h s
          | havingClause => exact safe_enclosing (by simp) (Operation.eq_of_admits rfl hcount) h s
          | brackets => exact safe_enclosing (by simp) (Operation.eq_of_admits rfl hcount) h s
          | not =>
              obtain ⟨t, rfl⟩ := List.length_eq_one_iff.mp (Operation.eq_of_admits rfl hcount)
              rw [value_not]
              exact Eval.Safe.ofTruth (safe_truthOf (h t (by simp)) fun b => trivial)
          | compare op =>
              cases op with
              | equal =>
                  obtain ⟨t, u, rfl⟩ :=
                    List.length_eq_two.mp (Operation.eq_of_admits rfl hcount)
                  exact safe_equal (h t (by simp)) (h u (by simp)) s
              | _ => cases hspecial
          | between =>
              obtain ⟨t, u, v, rfl⟩ :=
                List.length_eq_three.mp (Operation.eq_of_admits rfl hcount)
              exact safe_between (h t (by simp)) (h u (by simp)) (h v (by simp)) s
          | or =>
              rw [value_or (by rintro rfl; cases hcount)]
              exact Eval.Safe.ofTruth (safe_anyHolds h)
          | and =>
              rw [value_and (by rintro rfl; cases hcount)]
              exact Eval.Safe.ofTruth (safe_allHold h)
          | isIn =>
              cases ts with
              | nil => cases hcount
              | cons t items =>
                  obtain ⟨ht, hitems⟩ := List.forall_mem_cons.mp h
                  exact safe_isIn (by rintro rfl; cases hcount) ht hitems s
          | subselect => cases hcompound
          | path => cases hcompound
          | _ => cases hspecial

end Expression

end RowGuard
