import RowGuard.Proofs.Placements

/-!
# How far phrases reach

Every production remembers where it begins and ends with the last token passed, also where
it takes up an operand that has been read already, returns one unchanged or drops a sign.  So
whatever is read stands between the tokens at which its reader began and stopped.
-/

namespace RowGuard

open Query (Aggregate ArithmeticOperator Keyword Label Lexeme Phrase Reader Token)

namespace Query.Grammar

open Reader

variable {ts : List Lexeme} {i j : Nat} {start : Source.Span}

/-! ## Names and paths -/

theorem passes_aliasNext (i : Nat) : Passes ts i (fun _ _ => True) aliasNext := by
  refine passes_peek.look fun t? _ => ?_
  split <;> exact .pure trivial

/-- A word by itself. -/
theorem completes_word (i : Nat) (expected : String) (label : String → Label) :
    Completes ts i i (do
      let span ← here
      let name ← requireWord expected
      return .leaf (label name) span) :=
  passes_here.look fun _ hs => (passes_requireWord _).bind fun _ _ _ ⟨hi, hij⟩ =>
    .pure (hs.placed_leaf _ hi hij)

theorem completes_entityName (i : Nat) : Completes ts i i entityName :=
  completes_word i "an entity name" .entityName

theorem completes_variableName (i : Nat) : Completes ts i i variableName :=
  (passes_aliasNext i).bind fun _ j hij _ => .ite
    (fun _ => (completes_word j "an identification variable" .identifier).extend hij)
    fun _ => passes_fail _

theorem completes_declaredAlias (i : Nat) : Completes ts i i declaredAlias :=
  (passes_eatKeyword .as_).bind fun _ j hij _ => (completes_variableName j).extend hij

theorem passes_nextSegment (i : Nat) :
    Passes ts i (fun t? j => Placed ts i j t?.toList) nextSegment := by
  refine (passes_eat .dot).bind fun _ j hij _ => .ite (fun _ => ?_) fun _ => .pure (.nil hij)
  exact passes_here.look fun _ hs => (passes_requireWord _).bind fun _ _ _ ⟨hj, hjk⟩ =>
    .pure ((hs.placed_leaf _ hj hjk).mono hij le_rfl)

theorem completes_pathExpression (i : Nat) : Completes ts i i pathExpression := by
  refine passes_here.look fun start hstart => ?_
  refine (completes_variableName i).bind fun root j _ hroot => ?_
  exact (passes_many passes_nextSegment j).bind fun segments k hjk hsegments =>
    completes_collapse hstart (hroot.lt.trans_le hjk) (hroot.append le_rfl hsegments)

/-! ## Expressions -/

/-- Readers whose phrases stand where they are read. -/
structure Places (ts : List Lexeme) (inner : Inner) : Prop where
  condition : ∀ i, Completes ts i i inner.condition
  operand : ∀ i, Completes ts i i inner.operand
  subselect : ∀ {i j start}, Opens ts i start → i ≤ j → Completes ts i j (inner.subselect start)

theorem completes_single (l : Label) (hi : i < ts.length) : Completes ts i i (single l) :=
  passes_here.look fun _ hs => passes_advance.bind fun _ _ _ hj =>
    .pure (hs.placed_leaf l hi (Nat.lt_of_succ_le (hj hi).ge))

/-- The word has been seen, so it is left to pass. -/
theorem completes_wordPhrase (word : String) (hi : i < ts.length) :
    Completes ts i i (wordPhrase word) := by
  unfold wordPhrase
  split
  · exact completes_pathExpression i
  · split
    · exact completes_single _ hi
    · exact .ite (fun _ => passes_fail _) fun _ => completes_pathExpression i

theorem passes_trimSide (i : Nat) : Passes ts i (fun _ _ => True) trimSide :=
  passes_peekKeyword.look fun _ _ => .ite
    (fun _ => passes_advance.bind fun _ _ _ _ => .pure trivial) fun _ => .pure trivial

theorem passes_predicateNegation (i : Nat) : Passes ts i (fun _ _ => True) predicateNegation :=
  passes_peekKeyword.look fun _ _ => .ite
    (fun _ => passes_peekSecond.look fun _ _ => .ite
      (fun _ => passes_advance.bind fun _ _ _ _ => .pure trivial) fun _ => .pure trivial)
    fun _ => .pure trivial

/-- Operators group to the left: what has been read is the first operand of what follows, and
the whole begins where its very first operand does. -/
theorem completes_chainAtMost {operator? : Token → Option ArithmeticOperator}
    {operand : Reader Phrase} (hoperand : ∀ i, Completes ts i i operand)
    (hstart : Opens ts i start) (n : Nat) {left : Phrase} (hleft : Placed ts i j [left]) :
    Completes ts i j (chainAtMost operator? operand start n left) := by
  induction n generalizing j left with
  | zero => exact .pure hleft
  | succ n ih =>
      refine passes_peek.look fun token? _ => ?_
      split
      · exact .pure hleft
      · refine passes_advance.bind fun _ k hjk _ => (hoperand k).bind fun right m _ hright => ?_
        have hoperands := hleft.append hjk hright
        exact (completes_close hstart le_rfl hoperands.lt hoperands).bind fun _ _ _ ht => ih ht

theorem completes_chain {operator? : Token → Option ArithmeticOperator} {operand : Reader Phrase}
    (hoperand : ∀ i, Completes ts i i operand) (i : Nat) :
    Completes ts i i (chain operator? operand) :=
  passes_here.look fun _ hstart => (hoperand i).bind fun _ _ _ hleft =>
    passes_get.look fun _ _ => completes_chainAtMost hoperand hstart _ hleft

section Placing

variable {inner : Inner} (hinner : Places ts inner)
include hinner

section Calls

variable (hstart : Opens ts i start)
include hstart

theorem completes_aggregateCall (function : Aggregate) :
    Completes ts i i (aggregateCall inner function start) :=
  passes_advance.bind fun _ _ hij _ => (passes_require _ _).bind fun _ _ hjk _ =>
    (passes_eatKeyword _).bind fun _ m hkm _ => (hinner.operand m).bind fun _ _ _ ht =>
      completes_closed hstart (hij.trans (hjk.trans hkm)) ht.lt ht

theorem completes_functionCall (name : String) (f : Signature) :
    Completes ts i i (functionCall inner name f start) :=
  passes_advance.bind fun _ _ hij _ => (passes_require _ _).bind fun _ k hjk _ =>
    (passes_commaSeparated hinner.operand k).bind fun _ _ _ ⟨hlt, hus⟩ => .ite
      (fun _ => completes_closed hstart (hij.trans hjk) hlt hus)
      fun _ => passes_get.look fun _ _ => passes_throw _

theorem completes_trimCall : Completes ts i i (trimCall inner start) := by
  refine passes_advance.bind fun _ j hij _ => (passes_require _ _).bind fun _ k hjk _ => ?_
  refine (passes_trimSide k).bind fun side m hkm _ => (passes_eatKeyword _).bind fun _ n hmn _ => ?_
  have hin : i ≤ n := hij.trans (hjk.trans (hkm.trans hmn))
  have hfinish : ∀ (us : List Phrase) (o : Nat), n < o ∧ Placed ts n o us → Completes ts i o
      (require .closing "')'" >>= fun _ => close (.trim side) us start) :=
    fun us o h => completes_closed hstart hin h.1 h.2
  refine .ite (fun _ => (hinner.operand n).bind fun t o _ ht => hfinish [t] o ⟨ht.lt, ht⟩)
    fun _ => ?_
  refine (hinner.operand n).bind fun first o _ hfirst =>
    (passes_eatKeyword _).bind fun _ p hop _ => ?_
  refine .ite (fun _ => (hinner.operand p).bind fun t q _ ht => ?_) fun _ =>
    .ite (fun _ => ?_) fun _ => ?_
  · have hoperands := hfirst.append hop ht
    exact hfinish [first, t] q ⟨hoperands.lt, hoperands⟩
  · exact (passes_fail (P := fun us q => n < q ∧ Placed ts n q us) _).bind
      fun us q _ hus => hfinish us q hus
  · exact hfinish [first] p ⟨hfirst.lt.trans_le hop, hfirst.mono le_rfl hop⟩

end Calls

/-- A word that names no function is not passed. -/
theorem passes_call? (word : String) :
    Passes ts i (fun t? j => (t? = none → j = i) ∧ Placed ts i j t?.toList)
      (call? inner word) := by
  refine passes_here.look fun start hstart => ?_
  have hsome : ∀ {r : Reader Phrase}, Completes ts i i r →
      Passes ts i (fun t? k => (t? = none → k = i) ∧ Placed ts i k t?.toList)
        (do return some (← r)) :=
    fun h => h.bind fun t _ _ ht => .pure ⟨by simp, ht⟩
  split
  · exact hsome (completes_aggregateCall hinner hstart _)
  · simp only
    split
    · exact hsome (completes_functionCall hinner hstart _ _)
    · exact .ite (fun _ => hsome (completes_trimCall hinner hstart))
        fun _ => .pure ⟨fun _ => rfl, .nil le_rfl⟩

/-! ## Operands -/

theorem completes_bracketed (i : Nat) : Completes ts i i (bracketed inner) := by
  refine passes_here.look fun start hstart => passes_advance.bind fun _ j hij _ =>
    passes_peekKeyword.look fun _ _ => .ite (fun _ => hinner.subselect hstart hij) fun _ => ?_
  exact (hinner.condition j).bind fun _ _ _ ht => completes_closed hstart hij ht.lt ht

theorem completes_primary (i : Nat) : Completes ts i i (primary inner) := by
  refine passes_peek.look fun token? htoken => ?_
  split
  · exact completes_bracketed hinner i
  · have hi : i < ts.length := htoken _ rfl
    refine passes_peekSecond.look fun _ _ => .ite (fun _ => ?_) fun _ => completes_wordPhrase _ hi
    refine (passes_call? hinner _).bind fun t? j _ ⟨hnone, ht⟩ => ?_
    split
    · exact .pure ht
    · obtain rfl := hnone rfl
      exact completes_wordPhrase _ hi
  · split
    · exact completes_single _ (htoken _ rfl)
    · exact passes_fail _
  · exact passes_fail _

/-- A plus leaves no trace, so its operand begins behind it. -/
theorem completes_signedAtMost (n i : Nat) : Completes ts i i (signedAtMost inner n) := by
  induction n generalizing i with
  | zero => exact completes_primary hinner i
  | succ n ih =>
      refine passes_here.look fun start hstart => ?_
      refine (passes_eat _).bind fun _ j hij _ => .ite (fun _ => ?_) fun _ => ?_
      · exact (ih j).bind fun _ _ _ ht => completes_close hstart hij ht.lt ht
      · exact (passes_eat _).bind fun _ k hjk _ => .ite
          (fun _ => (ih k).extend (hij.trans hjk))
          fun _ => (completes_primary hinner k).extend (hij.trans hjk)

theorem completes_signed (i : Nat) : Completes ts i i (signed inner) :=
  passes_get.look fun _ _ => completes_signedAtMost hinner _ i

theorem completes_product (i : Nat) : Completes ts i i (product inner) :=
  completes_chain (completes_signed hinner) i

theorem completes_sum (i : Nat) : Completes ts i i (sum inner) :=
  completes_chain (completes_product hinner) i

/-! ## Conditions -/

theorem passes_items (i : Nat) :
    Passes ts i (fun us j => i < j ∧ Placed ts i j us) (items inner) := by
  have hone : ∀ {j r}, Completes ts i j r →
      Passes ts j (fun us k => i < k ∧ Placed ts i k us) (do return [← r]) :=
    fun h => h.bind fun _ _ _ ht => .pure ⟨ht.lt, ht⟩
  refine passes_peek.look fun token? _ => ?_
  split
  · exact hone (completes_primary hinner i)
  · exact hone (completes_primary hinner i)
  · refine (passes_require _ _).bind fun start j hij ⟨_, hstart⟩ => passes_peekKeyword.look
      fun _ _ => .ite (fun _ => hone (hinner.subselect hstart hij)) fun _ => ?_
    exact (passes_commaSeparated (completes_sum hinner) j).bind fun us k _ ⟨hlt, hus⟩ =>
      (passes_require _ _).bind fun _ m hkm _ =>
        .pure ⟨(hij.trans_lt hlt).trans_le hkm, hus.mono hij hkm⟩

section Predicates

variable (hstart : Opens ts i start) {left : Phrase} (hleft : Placed ts i j [left])
include hstart hleft

theorem completes_between : Completes ts i j (between inner left start) :=
  passes_advance.bind fun _ k hjk _ => (completes_sum hinner k).bind fun _ _ _ hlower =>
    (passes_requireKeyword _).bind fun _ n hmn _ => (completes_sum hinner n).bind
      fun _ _ _ hupper =>
        have hoperands := (hleft.append hjk hlower).append hmn hupper
        completes_close hstart le_rfl hoperands.lt hoperands

theorem completes_membership : Completes ts i j (membership inner left start) :=
  passes_advance.bind fun _ k hjk _ => (passes_items hinner k).bind fun _ _ _ ⟨_, hus⟩ =>
    have hoperands := hleft.append hjk hus
    completes_close hstart le_rfl hoperands.lt hoperands

theorem completes_likeness : Completes ts i j (likeness inner left start) := by
  refine passes_advance.bind fun _ k hjk _ => (completes_sum hinner k).bind
    fun pattern m _ hpattern => (passes_eatKeyword _).bind fun _ n hmn _ => ?_
  have hoperands := hleft.append hjk hpattern
  refine .ite (fun _ => (completes_primary hinner n).bind fun escape o _ hescape => ?_) fun _ => ?_
  · have hoperands := hoperands.append hmn hescape
    exact completes_close hstart le_rfl hoperands.lt hoperands
  · exact completes_close hstart le_rfl (hoperands.lt.trans_le hmn) (hoperands.mono le_rfl hmn)

theorem completes_collectionMembership :
    Completes ts i j (collectionMembership inner left start) :=
  passes_advance.bind fun _ _ hjk _ => (passes_eatKeyword _).bind fun _ m hkm _ =>
    (completes_primary hinner m).bind fun _ _ _ hcollection =>
      have hoperands := hleft.append (hjk.trans hkm) hcollection
      completes_close hstart le_rfl hoperands.lt hoperands

omit hinner hleft in
/-- A test as it is or negated; the negation has the span of the test. -/
theorem completes_finish {test : Phrase} (htest : Placed ts i j [test]) (negated : Bool) :
    Completes ts i j (if negated then close .not [test] start else pure test) :=
  .ite (fun _ => completes_close hstart le_rfl htest.lt htest) fun _ => .pure htest

omit hinner in
theorem completes_stateTest : Completes ts i j (stateTest left start) := by
  refine passes_advance.bind fun _ k hjk _ => (passes_eatKeyword _).bind fun negated m hkm _ => ?_
  have hfinish : ∀ (l : Label) (n : Nat), m ≤ n → Completes ts i n (do
        let test ← close l [left] start
        if negated then close .not [test] start else return test) := by
    intro l n hmn
    have hleft := hleft.mono (le_refl i) (hjk.trans (hkm.trans hmn))
    exact (completes_close hstart le_rfl hleft.lt hleft).bind fun _ _ _ htest =>
      completes_finish hstart htest negated
  refine (passes_eatKeyword _).bind fun _ n hmn _ =>
    .ite (fun _ => hfinish .isNull n hmn) fun _ => ?_
  refine (passes_eatKeyword _).bind fun _ o hno _ =>
    .ite (fun _ => hfinish .isEmpty o (hmn.trans hno)) fun _ => ?_
  exact (passes_fail (P := fun _ p => m ≤ p) _).bind fun l p _ hmp => hfinish l p hmp

theorem completes_predicate : Completes ts i j (predicate inner left start) := by
  refine (passes_predicateNegation j).bind fun negated k hjk _ =>
    passes_peekKeyword.look fun keyword? _ => ?_
  have hleft := hleft.mono (le_refl i) hjk
  have hfinish : ∀ {r : Reader Phrase}, Completes ts i k r → Completes ts i k
      (r >>= fun test => if negated then close .not [test] start else pure test) :=
    fun h => h.bind fun _ _ _ htest => completes_finish hstart htest negated
  split
  · exact hfinish (completes_between hinner hstart hleft)
  · exact hfinish (completes_membership hinner hstart hleft)
  · exact hfinish (completes_likeness hinner hstart hleft)
  · exact hfinish (completes_collectionMembership hinner hstart hleft)
  · exact .ite (fun _ => .pure hleft) fun _ => completes_stateTest hstart hleft
  · exact .pure hleft

end Predicates

theorem completes_existence (hstart : Opens ts i start) (hij : i ≤ j) :
    Completes ts i j (existence inner start) :=
  (passes_require _ _).bind fun _ _ hjk ⟨_, hopening⟩ =>
    passes_peekKeyword.look fun _ _ => .ite
      (fun _ => (hinner.subselect hopening hjk).bind fun _ _ _ ht =>
        completes_close hstart hij ht.lt ht)
      fun _ => passes_fail _

theorem completes_simpleCondition (i : Nat) : Completes ts i i (simpleCondition inner) := by
  refine passes_here.look fun start hstart => (passes_eatKeyword _).bind fun _ j hij _ =>
    .ite (fun _ => completes_existence hinner hstart hij) fun _ => ?_
  refine (completes_sum hinner j).bind fun left k _ hleft => passes_peek.look fun token? _ => ?_
  have hleft := hleft.mono hij le_rfl
  split
  · exact passes_advance.bind fun _ m hkm _ => (completes_sum hinner m).bind
      fun _ _ _ hright =>
        have hoperands := hleft.append hkm hright
        completes_close hstart le_rfl hoperands.lt hoperands
  · exact completes_predicate hinner hstart hleft

theorem completes_factorAtMost (n i : Nat) : Completes ts i i (factorAtMost inner n) := by
  induction n generalizing i with
  | zero => exact completes_simpleCondition hinner i
  | succ n ih =>
      refine passes_here.look fun start hstart => ?_
      refine (passes_eatKeyword _).bind fun _ j hij _ => .ite (fun _ => ?_)
        fun _ => (completes_simpleCondition hinner j).extend hij
      exact (ih j).bind fun _ _ _ ht => completes_close hstart hij ht.lt ht

theorem completes_factor (i : Nat) : Completes ts i i (factor inner) :=
  passes_get.look fun _ _ => completes_factorAtMost hinner _ i

omit hinner in
/-- Operands between connectives; one alone stands for itself. -/
theorem completes_connected {k : Keyword} {l : Label} {operand : Reader Phrase}
    (hoperand : ∀ i, Completes ts i i operand) (i : Nat) : Completes ts i i (do
      let start ← here
      let us ← separated (eatKeyword k) operand
      collapse l us start) := by
  refine passes_here.look fun start hstart => ?_
  have hmore : ∀ i, Passes ts i (fun _ _ => True) (eatKeyword k) :=
    fun _ => (passes_eatKeyword k).mono fun _ _ _ _ => trivial
  exact (passes_separated hmore hoperand i).bind fun _ _ _ ⟨hlt, hus⟩ =>
    completes_collapse hstart hlt hus

theorem completes_term (i : Nat) : Completes ts i i (term inner) :=
  completes_connected (completes_factor hinner) i

theorem completes_condition (i : Nat) : Completes ts i i (condition inner) :=
  completes_connected (completes_term hinner) i

end Placing

end Query.Grammar

end RowGuard
