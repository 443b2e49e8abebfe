import RowGuard.Proofs.Derivations

/-!
# What reading yields

Every reader makes phrases that the grammar derives in its category, as long as
the tokens it is given can be read from a text.  Readers of one depth are sound
if those of the depth below are.
-/

namespace RowGuard

open Query (Cursor Grammar.Inner Keyword Label Lexeme Phrase Reader Token)
open Query.Phrase

/-- The tokens that are left to read can be read from a text. -/
def Query.Cursor.Sound (c : Cursor) : Prop := ∀ lexeme ∈ c.rest, lexeme.token.Legal

namespace Query.Reader

variable {α β : Type}

/-- Whatever the reader returns has a property, and what is left stays sound. -/
def Yields (P : α → Prop) (r : Reader α) : Prop :=
  ∀ c a c', c.Sound → r.run c = .ok (a, c') → P a ∧ c'.Sound

variable {P : α → Prop} {Q : β → Prop}

theorem Yields.pure {a : α} (h : P a) : Yields P (pure a : Reader α) := by
  intro c b c' hc hr
  cases hr
  exact ⟨h, hc⟩

theorem Yields.bind {r : Reader α} {f : α → Reader β} (hr : Yields P r)
    (hf : ∀ a, P a → Yields Q (f a)) : Yields Q (r >>= f) := by
  intro c b c' hc h
  rw [StateT.run_bind] at h
  obtain ⟨⟨a, c₁⟩, ha, hb⟩ := Scope.ok_of_bind h
  obtain ⟨hP, hc₁⟩ := hr c a c₁ hc ha
  exact hf a hP c₁ b c' hc₁ hb

theorem Yields.mono {P' : α → Prop} {r : Reader α} (h : Yields P r) (hP : ∀ a, P a → P' a) :
    Yields P' r :=
  fun c a c' hc hr => (h c a c' hc hr).imp_left (hP a)

theorem Yields.ite {p : Prop} [Decidable p] {r r' : Reader α} (h : p → Yields P r)
    (h' : ¬p → Yields P r') : Yields P (if p then r else r') := by
  split
  · exact h ‹p›
  · exact h' ‹¬p›

theorem yields_fail (expected : String) : Yields P (fail expected : Reader α) := by
  intro c a c' _ h
  unfold fail at h
  rw [StateT.run_bind] at h
  obtain ⟨⟨d, c₁⟩, -, h⟩ := Scope.ok_of_bind h
  cases hrest : d.rest <;> rw [hrest] at h <;> cases h

theorem yields_throw (e : Mismatch) : Yields P (throw e : Reader α) := by
  intro c a c' _ h
  cases h

/-- Readers that return a state of the cursor. -/
theorem yields_get : Yields Cursor.Sound (get : Reader Cursor) := by
  intro c a c' hc h
  cases h
  exact ⟨hc, hc⟩

theorem yields_here : Yields (fun _ => True) here :=
  yields_get.bind fun _ _ => .pure trivial

theorem yields_advance : Yields (fun _ => True) advance := by
  intro c a c' hc h
  cases h
  refine ⟨trivial, fun lexeme hl => ?_⟩
  cases hrest : c.rest with
  | nil =>
      simp only [hrest] at hl
      cases hl
  | cons first rest =>
      simp only [hrest] at hl
      exact hc lexeme (hrest ▸ List.mem_cons_of_mem first hl)

/-- The token that comes next, if there is one, can be read from a text. -/
theorem yields_peek : Yields (fun t? => ∀ token ∈ t?, token.Legal) peek := by
  refine yields_get.bind fun c hc => .pure fun token ht => ?_
  obtain ⟨lexeme, hlexeme, rfl⟩ := Option.map_eq_some_iff.mp ht
  exact hc lexeme (List.mem_of_head? hlexeme)

theorem yields_peekSecond : Yields (fun _ => True) peekSecond :=
  yields_get.bind fun _ _ => .pure trivial

theorem yields_peekKeyword : Yields (fun _ => True) peekKeyword :=
  yields_peek.bind fun _ _ => .pure trivial

theorem yields_eat (token : Token) : Yields (fun _ => True) (eat token) :=
  yields_peek.bind fun _ _ => .ite
    (fun _ => yields_advance.bind fun _ _ => .pure trivial) fun _ => .pure trivial

theorem yields_eatKeyword (keyword : Keyword) : Yields (fun _ => True) (eatKeyword keyword) :=
  yields_peekKeyword.bind fun _ _ => .ite
    (fun _ => yields_advance.bind fun _ _ => .pure trivial) fun _ => .pure trivial

theorem yields_require (token : Token) (expected : String) :
    Yields (fun _ => True) (require token expected) :=
  (yields_eat token).bind fun _ _ => .ite
    (fun _ => yields_get.bind fun _ _ => .pure trivial) fun _ => yields_fail expected

theorem yields_requireKeyword (keyword : Keyword) :
    Yields (fun _ => True) (requireKeyword keyword) :=
  (yields_eatKeyword keyword).bind fun _ _ => .ite
    (fun _ => yields_get.bind fun _ _ => .pure trivial) fun _ => yields_fail _

theorem yields_requireWord (expected : String) :
    Yields (fun w => isName w) (requireWord expected) := by
  refine yields_peek.bind fun t? ht => ?_
  cases t? with
  | none => exact yields_fail expected
  | some token =>
      cases token with
      | word text => exact yields_advance.bind fun _ _ => .pure (ht _ rfl)
      | _ => exact yields_fail expected

theorem yields_close {l : Label} {ts : List Phrase} {start : Source.Span} {P : Phrase → Prop}
    (h : ∀ s, P (.node l ts s)) : Yields P (close l ts start) :=
  yields_get.bind fun _ _ => .pure (h _)

theorem yields_repeatAtMost {step : Reader (Option α)}
    (h : Yields (fun a? => ∀ a, a? = some a → P a) step) (n : Nat) :
    Yields (fun as => ∀ a ∈ as, P a) (repeatAtMost step n) := by
  induction n with
  | zero => exact .pure (by simp)
  | succ n ih =>
      refine h.bind fun a? ha => ?_
      cases a? with
      | none => exact .pure (by simp)
      | some a =>
          refine ih.bind fun as has => .pure fun b hb => ?_
          rcases List.mem_cons.mp hb with rfl | hb
          · exact ha _ rfl
          · exact has b hb

theorem yields_many {step : Reader (Option α)}
    (h : Yields (fun a? => ∀ a, a? = some a → P a) step) :
    Yields (fun as => ∀ a ∈ as, P a) (many step) :=
  yields_get.bind fun _ _ => yields_repeatAtMost h _

/-- Some results, at least one, each with a property. -/
def AtLeastOne (P : α → Prop) (as : List α) : Prop := ∃ b bs, as = b :: bs ∧ ∀ a ∈ b :: bs, P a

theorem yields_separated {more : Reader Bool} {item : Reader α}
    (hmore : Yields (fun _ => True) more) (hitem : Yields P item) :
    Yields (AtLeastOne P) (separated more item) := by
  refine hitem.bind fun a ha => ?_
  refine Yields.bind (yields_many (P := P) ?_) fun as has => .pure ⟨a, as, rfl, ?_⟩
  · refine hmore.bind fun b _ => .ite (fun _ => hitem.bind fun a ha => .pure ?_) fun _ => .pure ?_
    · rintro b ⟨⟩
      exact ha
    · simp
  · exact List.forall_mem_cons.mpr ⟨ha, has⟩

theorem yields_commaSeparated {item : Reader α} (hitem : Yields P item) :
    Yields (AtLeastOne P) (commaSeparated item) :=
  yields_separated (yields_eat .comma) hitem

end Query.Reader

namespace Query.Grammar

open Reader

/-! ## Names and paths -/

theorem yields_aliasNext : Yields (fun _ => True) aliasNext := by
  refine yields_peek.bind fun t? _ => ?_
  cases t? with
  | none => exact .pure trivial
  | some token => cases token <;> exact .pure trivial

/-- A variable by itself. -/
def IsVariable (t : Phrase) : Prop := ∃ a s, t = .node (.identifier a) [] s ∧ isVariable a

def IsEntityName (t : Phrase) : Prop := ∃ name s, t = .node (.entityName name) [] s ∧ isName name

theorem yields_entityName : Yields IsEntityName entityName :=
  yields_here.bind fun s _ => (yields_requireWord _).bind fun name hname =>
    .pure ⟨name, s, rfl, hname⟩

theorem aliasNext_run (w : String) (span : Source.Span) (rest : List Lexeme)
    (last stop : Source.Span) : aliasNext.run ⟨⟨.word w, span⟩ :: rest, last, stop⟩ =
      .ok ((Keyword.ofWord? w).all fun k => !k.isReserved, ⟨⟨.word w, span⟩ :: rest, last, stop⟩) := by
  cases hk : Keyword.ofWord? w <;>
    simp [aliasNext, peek, hk, StateT.run_bind] <;> rfl

/-- Whether a variable can be read is decided by the word that is then read. -/
theorem yields_variableName : Yields IsVariable variableName := by
  intro c t c' hc h
  obtain ⟨rest, last, stop⟩ := c
  cases rest with
  | nil => cases h
  | cons lexeme rest =>
      obtain ⟨token, span⟩ := lexeme
      have hlegal : token.Legal := hc ⟨token, span⟩ List.mem_cons_self
      have hrest : ∀ l ∈ rest, l.token.Legal := fun l hl => hc l (List.mem_cons_of_mem _ hl)
      cases token with
      | word w =>
          rw [variableName, StateT.run_bind, aliasNext_run] at h
          cases hw : (Keyword.ofWord? w).all fun k => !k.isReserved with
          | true =>
              rw [hw] at h
              cases h
              exact ⟨⟨w, span, rfl, by rw [isVariable, hw, Bool.and_true]; exact hlegal⟩, hrest⟩
          | false =>
              rw [hw] at h
              cases h
      | _ => cases h

theorem yields_declaredAlias : Yields IsVariable declaredAlias :=
  (yields_eatKeyword .as_).bind fun _ _ => yields_variableName

/-- A segment of a path. -/
def IsSegment (t : Phrase) : Prop := ∃ w s, t = .node (.segment w) [] s ∧ isName w

theorem yields_nextSegment :
    Yields (fun t? => ∀ t, t? = some t → IsSegment t) nextSegment := by
  refine (yields_eat .dot).bind fun _ _ => .ite (fun _ => ?_) fun _ => .pure (by simp)
  refine yields_here.bind fun s _ => (yields_requireWord _).bind fun w hw => .pure ?_
  rintro t ⟨⟩
  exact ⟨w, s, rfl, hw⟩

theorem areSegments_of_all {ts : List Phrase} (h : ∀ t ∈ ts, IsSegment t) :
    ∃ ws, AreSegments ts ws ∧ ws.length = ts.length ∧ ∀ w ∈ ws, isName w := by
  induction ts with
  | nil => exact ⟨[], .nil, rfl, by simp⟩
  | cons t ts ih =>
      obtain ⟨w, s, rfl, hw⟩ := h t (by simp)
      obtain ⟨ws, hws, hlength, hnames⟩ := ih fun u hu => h u (List.mem_cons_of_mem _ hu)
      exact ⟨w :: ws, .cons s (isWord_of_isName hw) hws, by simp [hlength],
        List.forall_mem_cons.mpr ⟨hw, hnames⟩⟩

theorem yields_pathExpression : Yields (Derives .reference) pathExpression := by
  refine yields_here.bind fun start _ => yields_variableName.bind fun root hroot => ?_
  refine (yields_many yields_nextSegment).bind fun segments hsegments => ?_
  obtain ⟨a, s, rfl, ha⟩ := hroot
  obtain ⟨ws, hws, hlength, hnames⟩ := areSegments_of_all hsegments
  cases segments with
  | nil => exact .pure (.name s ha)
  | cons segment segments =>
      cases ws with
      | nil => cases hlength
      | cons w ws => exact yields_close fun span => .path s span ha hws hnames

/-! ## Expressions -/

/-- Readers that yield phrases of their categories. -/
structure InnerSound (inner : Inner) : Prop where
  condition : Yields (Derives .condition) inner.condition
  operand : Yields (Derives .sum) inner.operand
  subselect : ∀ start, Yields (Derives .subselect) (inner.subselect start)

theorem yields_single {l : Label} (h : ∀ s, Derives .primary (.node l [] s)) :
    Yields (Derives .primary) (single l) :=
  yields_here.bind fun s _ => yields_advance.bind fun _ _ => .pure (h s)

theorem yields_wordPhrase (word : String) : Yields (Derives .primary) (wordPhrase word) := by
  have hpath : Yields (Derives .primary) pathExpression :=
    yields_pathExpression.mono fun _ => .reference
  unfold wordPhrase
  split
  · exact hpath
  · split
    · rename_i hl
      exact yields_single fun s => .keyword s hl
    · exact .ite (fun _ => yields_fail _) fun _ => hpath

theorem yields_trimSide : Yields (fun _ => True) trimSide :=
  yields_peekKeyword.bind fun _ _ => .ite
    (fun _ => yields_advance.bind fun _ _ => .pure trivial) fun _ => .pure trivial

theorem yields_predicateNegation : Yields (fun _ => True) predicateNegation :=
  yields_peekKeyword.bind fun _ _ => .ite
    (fun _ => yields_peekSecond.bind fun _ _ => .ite
      (fun _ => yields_advance.bind fun _ _ => .pure trivial) fun _ => .pure trivial)
    fun _ => .pure trivial

/-- Further operands extend what has been read on the left. -/
theorem yields_chain {operator? : Token → Option ArithmeticOperator} {operand : Reader Phrase}
    {P Q : Phrase → Prop} (hfirst : ∀ t, Q t → P t)
    (hstep : ∀ token op l r s, operator? token = some op → P l → Q r →
      P (.node (.arithmetic op) [l, r] s)) (hoperand : Yields Q operand) :
    Yields P (chain operator? operand) := by
  have hmore : ∀ (start : Source.Span) (n : Nat) (left : Phrase), P left →
      Yields P (chainAtMost operator? operand start n left) := by
    intro start n
    induction n with
    | zero => exact fun left hleft => .pure hleft
    | succ n ih =>
        refine fun left hleft => yields_peek.bind fun token? _ => ?_
        split
        · exact .pure hleft
        · rename_i op hop
          obtain ⟨token, -, hop⟩ := Option.bind_eq_some_iff.mp hop
          refine yields_advance.bind fun _ _ => hoperand.bind fun right hright => ?_
          exact (yields_close fun s => hstep token op left right s hop hleft hright).bind ih
  exact yields_here.bind fun start _ => hoperand.bind fun left hleft =>
    yields_get.bind fun _ _ => hmore start _ left (hfirst left hleft)

section Sound

variable {inner : Inner} (hinner : InnerSound inner)
include hinner

theorem yields_aggregateCall (function : Aggregate) (start : Source.Span) :
    Yields (Derives .primary) (aggregateCall inner function start) :=
  yields_advance.bind fun _ _ => (yields_require _ _).bind fun _ _ =>
    (yields_eatKeyword _).bind fun distinct _ => hinner.operand.bind fun _ ht =>
      (yields_require _ _).bind fun _ _ => yields_close fun s => .aggregate function distinct s ht

theorem yields_functionCall {name : String} {f : Signature} (hf : signature? name = some f)
    (start : Source.Span) : Yields (Derives .primary) (functionCall inner name f start) := by
  refine yields_advance.bind fun _ _ => (yields_require _ _).bind fun _ _ => ?_
  refine (yields_commaSeparated hinner.operand).bind fun ts hts => .ite (fun hadmits => ?_)
    fun _ => yields_get.bind fun _ _ => yields_throw _
  obtain ⟨t, ts, rfl, hts⟩ := hts
  exact (yields_require _ _).bind fun _ _ => yields_close fun s => .call s hf hadmits hts

theorem yields_trimCall (start : Source.Span) :
    Yields (Derives .primary) (trimCall inner start) := by
  refine yields_advance.bind fun _ _ => (yields_require _ _).bind fun _ _ => ?_
  refine yields_trimSide.bind fun side _ => (yields_eatKeyword _).bind fun _ _ => ?_
  have hfinish : ∀ operands : List Phrase,
      (∀ s, Derives .primary (.node (.trim side) operands s)) → Yields (Derives .primary)
        (require .closing "')'" >>= fun _ => close (.trim side) operands start) :=
    fun operands h => (yields_require _ _).bind fun _ _ => yields_close h
  refine .ite (fun _ => hinner.operand.bind fun t ht => hfinish [t] fun s => .trim side s ht)
    fun _ => ?_
  refine hinner.operand.bind fun first hfirst => (yields_eatKeyword _).bind fun _ _ => ?_
  refine .ite (fun _ => hinner.operand.bind fun t ht =>
    hfinish [first, t] fun s => .trimOff side s hfirst ht) fun _ => .ite (fun _ => ?_)
    fun _ => hfinish [first] fun s => .trim side s hfirst
  exact (yields_fail (P := fun ts => ∀ s, Derives .primary (.node (.trim side) ts s)) _).bind
    hfinish

theorem yields_call? (word : String) :
    Yields (fun t? => ∀ t, t? = some t → Derives .primary t) (call? inner word) := by
  refine yields_here.bind fun start _ => ?_
  have hsome : ∀ {t : Phrase}, Derives .primary t → ∀ u, some t = some u →
      Derives .primary u := by
    rintro t ht u ⟨⟩
    exact ht
  split
  · exact (yields_aggregateCall hinner _ start).bind fun t ht => .pure (hsome ht)
  · simp only
    split
    · rename_i f hf
      exact (yields_functionCall hinner hf start).bind fun t ht => .pure (hsome ht)
    · exact .ite (fun _ => (yields_trimCall hinner start).bind fun t ht => .pure (hsome ht))
        fun _ => .pure (by simp)

/-! ## Operands -/

theorem yields_bracketed : Yields (Derives .primary) (bracketed inner) :=
  yields_here.bind fun start _ => yields_advance.bind fun _ _ =>
    yields_peekKeyword.bind fun _ _ => .ite
      (fun _ => (hinner.subselect start).mono fun _ => .subselect) fun _ =>
        hinner.condition.bind fun _ ht => (yields_require _ _).bind fun _ _ =>
          yields_close fun s => .brackets s ht

theorem yields_primary : Yields (Derives .primary) (primary inner) := by
  refine yields_peek.bind fun token? htoken => ?_
  split
  · exact yields_bracketed hinner
  · refine yields_peekSecond.bind fun _ _ => .ite (fun _ => ?_) fun _ => yields_wordPhrase _
    refine (yields_call? hinner _).bind fun t? ht => ?_
    cases t? with
    | none => exact yields_wordPhrase _
    | some t => exact .pure (ht t rfl)
  · split
    · rename_i hl
      exact yields_single fun s => .literal s (htoken _ rfl) hl
    · exact yields_fail _
  · exact yields_fail _

theorem yields_signedAtMost (n : Nat) : Yields (Derives .signed) (signedAtMost inner n) := by
  have hprimary : Yields (Derives .signed) (primary inner) :=
    (yields_primary hinner).mono fun _ => .unsigned
  induction n with
  | zero => exact hprimary
  | succ n ih =>
      refine yields_here.bind fun start _ => (yields_eat _).bind fun _ _ => .ite (fun _ => ?_)
        fun _ => (yields_eat _).bind fun _ _ => .ite (fun _ => ih) fun _ => hprimary
      exact ih.bind fun t ht => yields_close fun s => .negative s ht

theorem yields_signed : Yields (Derives .signed) (signed inner) :=
  yields_get.bind fun _ _ => yields_signedAtMost hinner _

theorem yields_product : Yields (Derives .product) (product inner) := by
  refine yields_chain (fun _ => .single) ?_ (yields_signed hinner)
  intro token op l r s hop hl hr
  refine .multiply s ?_ hl hr
  cases token <;> cases hop <;> rfl

theorem yields_sum : Yields (Derives .sum) (sum inner) := by
  refine yields_chain (fun _ => .summand) ?_ (yields_product hinner)
  intro token op l r s hop hl hr
  refine .add s ?_ hl hr
  cases token <;> cases hop <;> rfl

/-! ## Conditions -/

theorem yields_items : Yields (AtLeastOne (Derives .sum)) (items inner) := by
  have hsingle : ∀ {t : Phrase}, Derives .primary t → AtLeastOne (Derives .sum) [t] :=
    fun ht => ⟨_, [], rfl, List.forall_mem_singleton.mpr (.summand (.single (.unsigned ht)))⟩
  have hlist : Yields (AtLeastOne (Derives .sum)) (do
      let start ← require .opening "'('"
      if (← peekKeyword) = some .select then return [← inner.subselect start]
      else
        let ts ← commaSeparated (sum inner)
        let _ ← require .closing "')'"
        return ts) :=
    (yields_require _ _).bind fun start _ => yields_peekKeyword.bind fun _ _ => .ite
      (fun _ => (hinner.subselect start).bind fun t ht => .pure (hsingle (.subselect ht)))
      fun _ => (yields_commaSeparated (yields_sum hinner)).bind fun ts hts =>
        (yields_require _ _).bind fun _ _ => .pure hts
  have hone : Yields (AtLeastOne (Derives .sum)) (do return [← primary inner]) :=
    (yields_primary hinner).bind fun t ht => .pure (hsingle ht)
  refine yields_peek.bind fun token? _ => ?_
  split
  · exact hone
  · exact hone
  · exact hlist

section Predicates

variable {left : Phrase} (hleft : Derives .sum left) (start : Source.Span)
include hleft

theorem yields_between : Yields (Derives .predicate) (between inner left start) :=
  yields_advance.bind fun _ _ => (yields_sum hinner).bind fun _ hlower =>
    (yields_requireKeyword _).bind fun _ _ => (yields_sum hinner).bind fun _ hupper =>
      yields_close fun s => .between s hleft hlower hupper

theorem yields_membership : Yields (Derives .predicate) (membership inner left start) := by
  refine yields_advance.bind fun _ _ => (yields_items hinner).bind fun ts hts => ?_
  obtain ⟨t, ts, rfl, hts⟩ := hts
  by_cases hone : ts = [] ∧ t.label = .subselect
  · obtain ⟨rfl, hlabel⟩ := hone
    exact yields_close fun s => .isInSubselect s hleft ((hts t (by simp)).subselect_of_sum hlabel)
  · exact yields_close fun s => .isIn s hleft hts fun hnil hlabel => hone ⟨hnil, hlabel⟩

theorem yields_likeness : Yields (Derives .predicate) (likeness inner left start) :=
  yields_advance.bind fun _ _ => (yields_sum hinner).bind fun _ hpattern =>
    (yields_eatKeyword _).bind fun _ _ => .ite
      (fun _ => (yields_primary hinner).bind fun _ hescape =>
        yields_close fun s => .likeEscape s hleft hpattern hescape)
      fun _ => yields_close fun s => .like s hleft hpattern

theorem yields_collectionMembership :
    Yields (Derives .predicate) (collectionMembership inner left start) :=
  yields_advance.bind fun _ _ => (yields_eatKeyword _).bind fun _ _ =>
    (yields_primary hinner).bind fun _ hcollection =>
      yields_close fun s => .memberOf s hleft hcollection

omit hinner hleft in
/-- A predicate as it is or negated. -/
theorem yields_finish {test : Phrase} (htest : Derives .predicate test) (negated : Bool) :
    Yields (Derives .simple) (if negated then close .not [test] start else pure test) :=
  .ite (fun _ => yields_close fun s => .negated s htest) fun _ => .pure (.test htest)

omit hinner in
theorem yields_stateTest : Yields (Derives .simple) (stateTest left start) := by
  refine yields_advance.bind fun _ _ => (yields_eatKeyword _).bind fun negated _ => ?_
  have hfinish : ∀ l : Label, (∀ s, Derives .predicate (.node l [left] s)) →
      Yields (Derives .simple) (do
        let test ← close l [left] start
        if negated then close .not [test] start else return test) := fun l hl =>
    (yields_close hl).bind fun _ htest => yields_finish start htest negated
  refine (yields_eatKeyword _).bind fun _ _ =>
    .ite (fun _ => hfinish .isNull fun s => .isNull s hleft) fun _ => ?_
  refine (yields_eatKeyword _).bind fun _ _ =>
    .ite (fun _ => hfinish .isEmpty fun s => .isEmpty s hleft) fun _ => ?_
  exact (yields_fail (P := fun l => ∀ s, Derives .predicate (.node l [left] s)) _).bind hfinish

theorem yields_predicate : Yields (Derives .simple) (predicate inner left start) := by
  refine yields_predicateNegation.bind fun negated _ => ?_
  refine yields_peekKeyword.bind fun keyword? _ => ?_
  have hfinish := fun (test : Phrase) (htest : Derives .predicate test) =>
    yields_finish start htest negated
  split
  · exact (yields_between hinner hleft start).bind hfinish
  · exact (yields_membership hinner hleft start).bind hfinish
  · exact (yields_likeness hinner hleft start).bind hfinish
  · exact (yields_collectionMembership hinner hleft start).bind hfinish
  · exact .ite (fun _ => .pure (.operand hleft)) fun _ => yields_stateTest hleft start
  · exact .pure (.operand hleft)

end Predicates

theorem yields_existence (start : Source.Span) :
    Yields (Derives .simple) (existence inner start) :=
  (yields_require _ _).bind fun opening _ => yields_peekKeyword.bind fun _ _ => .ite
    (fun _ => (hinner.subselect opening).bind fun _ ht => yields_close fun s => .exist s ht)
    fun _ => yields_fail _

theorem yields_simpleCondition : Yields (Derives .simple) (simpleCondition inner) := by
  refine yields_here.bind fun start _ => (yields_eatKeyword _).bind fun _ _ => .ite
    (fun _ => yields_existence hinner start) fun _ => ?_
  refine (yields_sum hinner).bind fun left hleft => yields_peek.bind fun token? _ => ?_
  split
  · exact yields_advance.bind fun _ _ => (yields_sum hinner).bind fun right hright =>
      yields_close fun s => .compare _ s hleft hright
  · exact yields_predicate hinner hleft start

theorem yields_factorAtMost (n : Nat) : Yields (Derives .factor) (factorAtMost inner n) := by
  have hsimple : Yields (Derives .factor) (simpleCondition inner) :=
    (yields_simpleCondition hinner).mono fun _ => .simple
  induction n with
  | zero => exact hsimple
  | succ n ih =>
      exact yields_here.bind fun start _ => (yields_eatKeyword _).bind fun _ _ => .ite
        (fun _ => ih.bind fun t ht => yields_close fun s => .not s ht) fun _ => hsimple

omit hinner in
/-- One phrase stands for itself, several make a phrase of the looser category. -/
theorem yields_collapse {l : Label} {P Q : Phrase → Prop} {ts : List Phrase}
    {start : Source.Span} (hone : ∀ t, P t → Q t)
    (hmany : ∀ t u us s, (∀ v ∈ t :: u :: us, P v) → Q (.node l (t :: u :: us) s))
    (h : AtLeastOne P ts) : Yields Q (collapse l ts start) := by
  obtain ⟨t, ts, rfl, hts⟩ := h
  cases ts with
  | nil => exact .pure (hone t (hts t (by simp)))
  | cons u us => exact yields_close fun s => hmany t u us s hts

theorem yields_term : Yields (Derives .term) (term inner) :=
  yields_here.bind fun _ _ => (yields_separated (yields_eatKeyword _)
    (yields_get.bind fun _ _ => yields_factorAtMost hinner _)).bind
      fun _ hts => yields_collapse (fun _ => .factor) (fun _ _ _ s => .and s) hts

theorem yields_condition : Yields (Derives .condition) (condition inner) :=
  yields_here.bind fun _ _ => (yields_separated (yields_eatKeyword _) (yields_term hinner)).bind
    fun _ hts => yields_collapse (fun _ => .term) (fun _ _ _ s => .or s) hts

end Sound

end Query.Grammar

end RowGuard
