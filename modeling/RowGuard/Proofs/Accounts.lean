import RowGuard.Proofs.Placeholders

/-!
# Reading accounts for placeholders

A reader makes phrases of the tokens that it passes.  Each parameter among those tokens
ends up in the phrases, and the phrases have no other parameters.  What is carried along
is therefore an account: what was noted before a reader runs, and what is left to read
then, come to what is noted of its result and what is left to read behind it.  As readers
look at the next token before they pass it, the account may assume something of that
token.
-/

namespace RowGuard

open Query (ArithmeticOperator Cursor Grammar.Inner Keyword Label Lexeme Mismatch Phrase Reader
  Token placeholdersOf)
open Query.Phrase (placeholders placeholders_node placeholders_of_not)

/-- The parameters that are left to read. -/
def Query.Cursor.placeholders (c : Cursor) : List Label := placeholdersOf c.tokens

namespace Query.Reader

variable {α β : Type}

/-- If the next token is as expected, what was noted and what is left to read come to what
is noted of the result and what is left behind it. -/
def Accounts (expected : Option Token → Prop) (noted : List Label) (note : α → List Label)
    (r : Reader α) : Prop :=
  ∀ c a c', expected c.tokens.head? → r.run c = .ok (a, c') →
    noted ++ c.placeholders = note a ++ c'.placeholders

/-- Nothing is expected of the next token. -/
abbrev Anything : Option Token → Prop := fun _ => True

/-- No parameter comes next. -/
def Silent (t? : Option Token) : Prop := ∀ t ∈ t?, t.placeholder? = none

/-- No parameter is passed. -/
abbrev Skips (r : Reader α) : Prop := Accounts Anything [] (fun _ => []) r

/-- The phrase that is read has the parameters that are passed. -/
abbrev Retains (r : Reader Phrase) : Prop := Accounts Anything [] placeholders r

/-- The same for phrases one behind the other. -/
abbrev RetainsAll (r : Reader (List Phrase)) : Prop :=
  Accounts Anything [] (List.flatMap placeholders) r

/-- The same for a phrase that may be missing. -/
abbrev RetainsAny (r : Reader (Option Phrase)) : Prop :=
  Accounts Anything [] (fun t? => t?.toList.flatMap placeholders) r

/-- The reader leaves the cursor where it is. -/
def Looks (r : Reader α) : Prop := ∀ c a c', r.run c = .ok (a, c') → c' = c

variable {H : Option Token → Prop} {ps : List Label} {note : α → List Label}
  {note' : β → List Label} {r : Reader α} {f : α → Reader β}

/-- A sequence of readers that succeeds is two readers that do. -/
theorem run_bind_eq_ok {c c' : Cursor} {b : β} (h : (r >>= f).run c = .ok (b, c')) :
    ∃ a d, r.run c = .ok (a, d) ∧ (f a).run d = .ok (b, c') := by
  rw [StateT.run_bind] at h
  obtain ⟨⟨a, d⟩, ha, hb⟩ := Scope.ok_of_bind h
  exact ⟨a, d, ha, hb⟩

theorem run_fail_ne_ok (expected : String) (c : Cursor) (a : α) (c' : Cursor) :
    (fail expected : Reader α).run c ≠ .ok (a, c') := by
  intro h
  unfold fail at h
  obtain ⟨d, c₁, -, h⟩ := run_bind_eq_ok h
  cases hrest : d.rest <;> rw [hrest] at h <;> cases h

namespace Accounts

theorem weaken {H' : Option Token → Prop} (h : Accounts H ps note r)
    (hH : ∀ t?, H' t? → H t?) : Accounts H' ps note r :=
  fun c a c' hc hr => h c a c' (hH _ hc) hr

/-- What holds whatever comes next holds whatever is expected. -/
theorem always (h : Accounts Anything ps note r) : Accounts H ps note r :=
  h.weaken fun _ _ => trivial

theorem congr {note₁ : α → List Label} (h : Accounts H ps note r)
    (hnote : ∀ a, note a = note₁ a) : Accounts H ps note₁ r :=
  fun c a c' hc hr => hnote a ▸ h c a c' hc hr

theorem pure {a : α} (h : note a = ps) : Accounts H ps note (pure a : Reader α) := by
  intro c b c' _ hr
  cases hr
  rw [h]

theorem bind (hr : Accounts H ps note r) (hf : ∀ a, Accounts Anything (note a) note' (f a)) :
    Accounts H ps note' (r >>= f) := by
  intro c b c' hc h
  obtain ⟨a, c₁, ha, hb⟩ := run_bind_eq_ok h
  calc ps ++ c.placeholders = note a ++ c₁.placeholders := hr c a c₁ hc ha
    _ = note' b ++ c'.placeholders := hf a c₁ b c' trivial hb

/-- What was noted before stays in front. -/
theorem framed (h : Accounts H ps note r) (qs : List Label) :
    Accounts H (qs ++ ps) (fun a => qs ++ note a) r := by
  intro c a c' hc hr
  calc qs ++ ps ++ c.placeholders = qs ++ (ps ++ c.placeholders) := List.append_assoc ..
    _ = qs ++ (note a ++ c'.placeholders) := by rw [h c a c' hc hr]
    _ = qs ++ note a ++ c'.placeholders := (List.append_assoc ..).symm

theorem next (h : Accounts H [] note r)
    (hf : ∀ a, Accounts Anything (ps ++ note a) note' (f a)) : Accounts H ps note' (r >>= f) :=
  Accounts.bind (by simpa using h.framed ps) hf

theorem skip (h : Accounts H [] (fun _ => []) r)
    (hf : ∀ a, Accounts Anything ps note' (f a)) : Accounts H ps note' (r >>= f) :=
  h.next fun a => (List.append_nil ps).symm ▸ hf a

theorem look (h : Looks r) (hf : ∀ a, Accounts H ps note' (f a)) :
    Accounts H ps note' (r >>= f) := by
  intro c b c' hc hr
  obtain ⟨a, c₁, ha, hb⟩ := run_bind_eq_ok hr
  cases h c a c₁ ha
  exact hf a c b c' hc hb

/-- Behind a look at the next token, that token is known. -/
theorem peek {f : Option Token → Reader β} (hf : ∀ t?, Accounts (· = t?) ps note' (f t?)) :
    Accounts H ps note' (peek >>= f) := by
  intro c b c' _ hr
  obtain ⟨t?, c₁, ha, hb⟩ := run_bind_eq_ok hr
  cases ha
  exact hf (c.rest.head?.map Lexeme.token) c b c' List.head?_map hb

theorem peekKeyword {f : Option Keyword → Reader β}
    (hf : ∀ k?, Accounts (fun t? => t?.bind Token.keyword? = k?) ps note' (f k?)) :
    Accounts H ps note' (peekKeyword >>= f) := by
  intro c b c' _ hr
  obtain ⟨k?, c₁, ha, hb⟩ := run_bind_eq_ok hr
  cases ha
  refine hf _ c b c' ?_ hb
  rw [Cursor.tokens, List.head?_map]

theorem ite {p : Prop} [Decidable p] {r₁ r₂ : Reader α} (h₁ : p → Accounts H ps note r₁)
    (h₂ : ¬p → Accounts H ps note r₂) : Accounts H ps note (if p then r₁ else r₂) := by
  split
  · exact h₁ ‹p›
  · exact h₂ ‹¬p›

theorem fail (expected : String) : Accounts H ps note (fail expected : Reader α) :=
  fun c a c' _ h => (run_fail_ne_ok expected c a c' h).elim

/-- Nothing follows a failure. -/
theorem failed (expected : String) :
    Accounts H ps note' ((Reader.fail expected : Reader α) >>= f) := by
  intro c b c' _ h
  obtain ⟨a, c₁, hfail, -⟩ := run_bind_eq_ok h
  exact (run_fail_ne_ok expected c a c₁ hfail).elim

theorem throw (e : Mismatch) : Accounts H ps note (throw e : Reader α) :=
  fun _ _ _ _ h => nomatch h

end Accounts

/-! ## Looking and passing -/

theorem silent_of_keyword {t? : Option Token} {k : Keyword}
    (h : t?.bind Token.keyword? = some k) : Silent t? := by
  rintro t rfl
  cases t with
  | word w => rfl
  | _ => cases h

theorem looks_get : Looks (get : Reader Cursor) := by
  intro c a c' h
  cases h
  rfl

theorem Looks.map (h : Looks r) (g : α → β) : Looks (do return g (← r)) := by
  intro c b c' hr
  obtain ⟨a, c₁, ha, hb⟩ := run_bind_eq_ok hr
  cases hb
  exact h c a c' ha

theorem looks_here : Looks here := looks_get.map _

theorem looks_peek : Looks peek := looks_get.map _

theorem looks_peekSecond : Looks peekSecond := looks_get.map _

theorem looks_peekKeyword : Looks peekKeyword := looks_peek.map _

/-- A token that is passed is noted. -/
theorem accounts_advance (h : ∀ t?, H t? → placeholdersOf t?.toList = ps) :
    Accounts H [] (fun _ => ps) advance := by
  intro c a c' hc hr
  cases hr
  obtain ⟨rest, last, stop⟩ := c
  cases rest with
  | nil => exact congrArg (· ++ []) (h none hc)
  | cons lexeme rest =>
      have hpassed : placeholdersOf [lexeme.token] = ps := h (some lexeme.token) hc
      rw [← hpassed]
      exact placeholdersOf_append [lexeme.token] (rest.map Lexeme.token)

theorem accounts_pass (h : ∀ t?, H t? → Silent t?) : Accounts H [] (fun _ => []) advance := by
  refine accounts_advance fun t? ht => ?_
  cases t? with
  | none => rfl
  | some t => simp [h (some t) ht t rfl]

theorem skips_eat {token : Token} (h : token.placeholder? = none) : Skips (eat token) := by
  refine .peek fun t? => .ite (fun ht => ?_) fun _ => .pure rfl
  refine (accounts_pass fun u? hu t hmem => ?_).skip fun _ => .pure rfl
  rw [hu, ht] at hmem
  exact Option.some.inj hmem ▸ h

theorem skips_eatKeyword (k : Keyword) : Skips (eatKeyword k) := by
  refine .peekKeyword fun k? => .ite (fun hk => ?_) fun _ => .pure rfl
  exact (accounts_pass fun t? ht => silent_of_keyword (ht.trans hk)).skip fun _ => .pure rfl

theorem skips_require {token : Token} (h : token.placeholder? = none) (expected : String) :
    Skips (require token expected) :=
  (skips_eat h).skip fun _ => .ite (fun _ => .look looks_get fun _ => .pure rfl)
    fun _ => .fail expected

theorem skips_requireKeyword (k : Keyword) : Skips (requireKeyword k) :=
  (skips_eatKeyword k).skip fun _ => .ite (fun _ => .look looks_get fun _ => .pure rfl)
    fun _ => .fail _

theorem skips_requireWord (expected : String) : Skips (requireWord expected) := by
  refine .peek fun t? => ?_
  split
  · refine (accounts_pass ?_).skip fun _ => .pure rfl
    rintro - rfl t ⟨⟩
    rfl
  · exact .fail expected

theorem Accounts.close {l : Label} {ts : List Phrase} {start : Source.Span}
    (hl : l.isPlaceholder = false) (h : ts.flatMap placeholders = ps) :
    Accounts H ps placeholders (close l ts start) :=
  .look looks_get fun _ => .pure ((placeholders_of_not hl).trans h)

theorem Accounts.collapse {l : Label} {ts : List Phrase} {start : Source.Span}
    (hl : l.isPlaceholder = false) (h : ts.flatMap placeholders = ps) :
    Accounts H ps placeholders (collapse l ts start) := by
  unfold Reader.collapse
  split
  · rename_i t
    exact .pure (by rw [← h, List.flatMap_singleton])
  · exact .close hl h

/-! ## Repeating -/

theorem accounts_repeatAtMost {step : Reader (Option α)}
    (h : Accounts Anything [] (fun a? => a?.toList.flatMap note) step) (n : Nat) :
    Accounts Anything [] (List.flatMap note) (repeatAtMost step n) := by
  induction n with
  | zero => exact .pure rfl
  | succ n ih =>
      refine h.next fun a? => ?_
      cases a? with
      | none => exact .pure rfl
      | some a => exact ih.next fun as => .pure (by simp)

theorem accounts_many {step : Reader (Option α)}
    (h : Accounts Anything [] (fun a? => a?.toList.flatMap note) step) :
    Accounts Anything [] (List.flatMap note) (many step) :=
  .look looks_get fun _ => accounts_repeatAtMost h _

theorem skips_many {step : Reader (Option α)} (h : Skips step) : Skips (many step) := by
  have hstep : Accounts Anything [] (fun a? => a?.toList.flatMap fun _ => ([] : List Label)) step :=
    h.congr fun a? => by cases a? <;> rfl
  exact (accounts_many hstep).congr fun as => List.flatMap_eq_nil_iff.mpr fun _ _ => rfl

theorem accounts_separated {more : Reader Bool} {item : Reader α} (hmore : Skips more)
    (hitem : Accounts Anything [] note item) :
    Accounts Anything [] (List.flatMap note) (separated more item) := by
  have hmany : Accounts Anything [] (List.flatMap note)
      (many do if ← more then return some (← item) else return none) :=
    accounts_many <| hmore.skip fun _ =>
      .ite (fun _ => hitem.next fun b => .pure (by simp)) fun _ => .pure rfl
  exact hitem.next fun a => hmany.next fun as => .pure rfl

theorem accounts_commaSeparated {item : Reader α} (hitem : Accounts Anything [] note item) :
    Accounts Anything [] (List.flatMap note) (commaSeparated item) :=
  accounts_separated (skips_eat rfl) hitem

end Query.Reader

namespace Query.Grammar

open Reader

variable {H : Option Token → Prop}

/-! ## Names and paths -/

theorem looks_aliasNext : Looks aliasNext := by
  intro c a c' h
  obtain ⟨rest, last, stop⟩ := c
  cases rest with
  | nil => cases h; rfl
  | cons lexeme rest =>
      obtain ⟨token, span⟩ := lexeme
      cases token with
      | word w =>
          rw [aliasNext_run] at h
          cases h
          rfl
      | _ => cases h; rfl

theorem retains_entityName : Retains entityName :=
  .look looks_here fun _ => (skips_requireWord _).skip fun _ => .pure (placeholders_of_not rfl)

theorem retains_variableName : Retains variableName :=
  .look looks_aliasNext fun _ => .ite
    (fun _ => .look looks_here fun _ => (skips_requireWord _).skip fun _ =>
      .pure (placeholders_of_not rfl))
    fun _ => .fail _

theorem retains_declaredAlias : Retains declaredAlias :=
  (skips_eatKeyword .as_).skip fun _ => retains_variableName

theorem retains_nextSegment : RetainsAny nextSegment :=
  (skips_eat rfl).skip fun _ => .ite
    (fun _ => .look looks_here fun _ => (skips_requireWord _).skip fun _ =>
      .pure ((List.flatMap_singleton _ _).trans (placeholders_of_not rfl)))
    fun _ => .pure rfl

theorem retains_pathExpression : Retains pathExpression :=
  .look looks_here fun _ => retains_variableName.next fun _ =>
    (accounts_many retains_nextSegment).next fun _ => .collapse rfl rfl

/-! ## Expressions -/

/-- Readers that account for what stands between brackets. -/
structure InnerRetains (inner : Inner) : Prop where
  condition : Retains inner.condition
  operand : Retains inner.operand
  subselect : ∀ start, Retains (inner.subselect start)

/-- A phrase of one token stands for the parameter that the token stands for. -/
theorem accounts_single {l : Label}
    (h : ∀ t?, H t? → placeholdersOf t?.toList = if l.isPlaceholder then [l] else []) :
    Accounts H [] placeholders (single l) :=
  .look looks_here fun _ => (accounts_advance h).next fun _ =>
    .pure (placeholders_node.trans (List.append_nil _))

theorem isPlaceholder_keyword {k : Keyword} {l : Label} (h : keywordLabel? k = some l) :
    l.isPlaceholder = false := by
  cases k <;> first
    | exact absurd h.symm (Option.some_ne_none l)
    | cases h; rfl

theorem accounts_wordPhrase (word : String) :
    Accounts Silent [] placeholders (wordPhrase word) := by
  unfold wordPhrase
  split
  · exact retains_pathExpression.always
  · split
    · rename_i l hl
      refine accounts_single fun t? ht => ?_
      rw [isPlaceholder_keyword hl]
      cases t? with
      | none => rfl
      | some t => simp [ht t rfl]
    · exact .ite (fun _ => .fail _) fun _ => retains_pathExpression.always

theorem skips_trimSide : Skips trimSide := by
  refine .peekKeyword fun k? => .ite (fun hside => ?_) fun _ => .pure rfl
  cases k? with
  | none => cases hside
  | some k =>
      exact (accounts_pass fun t? ht => silent_of_keyword ht).skip fun _ => .pure rfl

theorem skips_predicateNegation : Skips predicateNegation :=
  .peekKeyword fun _ => .ite
    (fun hnot => .look looks_peekSecond fun _ => .ite
      (fun _ => (accounts_pass fun _ ht => silent_of_keyword (ht.trans hnot)).skip
        fun _ => .pure rfl)
      fun _ => .pure rfl)
    fun _ => .pure rfl

/-- A chain has the parameters of its operands, in their order. -/
theorem retains_chain {operator? : Token → Option ArithmeticOperator} {operand : Reader Phrase}
    (hoperator : ∀ token op, operator? token = some op → token.placeholder? = none)
    (hoperand : Retains operand) : Retains (chain operator? operand) := by
  have hmore : ∀ (start : Source.Span) (n : Nat) (left : Phrase),
      Accounts Anything left.placeholders placeholders
        (chainAtMost operator? operand start n left) := by
    intro start n
    induction n with
    | zero => exact fun left => .pure rfl
    | succ n ih =>
        refine fun left => .peek fun t? => ?_
        split
        · exact .pure rfl
        · rename_i op hop
          obtain ⟨token, htoken, hop⟩ := Option.bind_eq_some_iff.mp hop
          have hpass : Accounts (· = t?) [] (fun _ => []) advance := by
            refine accounts_pass fun u? hu t hmem => ?_
            rw [hu, htoken] at hmem
            exact Option.some.inj hmem ▸ hoperator token op hop
          refine hpass.skip fun _ => hoperand.next fun right => ?_
          exact (Accounts.close rfl (by simp)).bind ih
  exact .look looks_here fun start => hoperand.next fun left =>
    .look looks_get fun _ => hmore start _ left

section Inner

variable {inner : Inner} (hinner : InnerRetains inner)
include hinner

theorem accounts_aggregateCall (function : Aggregate) (start : Source.Span) :
    Accounts Silent [] placeholders (aggregateCall inner function start) :=
  (accounts_pass fun _ => id).skip fun _ => (skips_require rfl _).skip fun _ =>
    (skips_eatKeyword _).skip fun _ => hinner.operand.next fun _ =>
      (skips_require rfl _).skip fun _ => .close rfl (by simp)

theorem accounts_functionCall {name : String} {f : Signature} (hf : signature? name = some f)
    (start : Source.Span) : Accounts Silent [] placeholders (functionCall inner name f start) := by
  refine (accounts_pass fun _ => id).skip fun _ => (skips_require rfl _).skip fun _ => ?_
  exact (accounts_commaSeparated hinner.operand).next fun _ => .ite
    (fun _ => (skips_require rfl _).skip fun _ => .close (isPlaceholder_signature hf) rfl)
    fun _ => .look looks_get fun _ => .throw _

theorem accounts_trimCall (start : Source.Span) :
    Accounts Silent [] placeholders (trimCall inner start) := by
  refine (accounts_pass fun _ => id).skip fun _ => (skips_require rfl _).skip fun _ => ?_
  refine skips_trimSide.skip fun side => (skips_eatKeyword _).skip fun _ => ?_
  have hfinish : ∀ operands : List Phrase,
      Accounts Anything (operands.flatMap placeholders) placeholders
        (require .closing "')'" >>= fun _ => close (.trim side) operands start) :=
    fun operands => (skips_require rfl _).skip fun _ => .close rfl rfl
  refine .ite (fun _ => hinner.operand.next fun t => ?_) fun _ => ?_
  · simpa using hfinish [t]
  · refine hinner.operand.next fun first => (skips_eatKeyword _).skip fun _ => ?_
    refine .ite (fun _ => hinner.operand.next fun t => ?_) fun _ => .ite (fun _ => ?_) fun _ => ?_
    · simpa using hfinish [first, t]
    · exact .failed _
    · simpa using hfinish [first]

theorem accounts_call? (word : String) : Accounts Silent []
    (fun t? => t?.toList.flatMap placeholders) (call? inner word) := by
  refine .look looks_here fun start => ?_
  split
  · exact (accounts_aggregateCall hinner _ start).next fun t => .pure (by simp)
  · simp only
    split
    · rename_i f hf
      exact (accounts_functionCall hinner hf start).next fun t => .pure (by simp)
    · exact .ite (fun _ => (accounts_trimCall hinner start).next fun t => .pure (by simp))
        fun _ => .pure rfl

omit hinner in
/-- A reader whose result is wrapped never comes to nothing. -/
theorem ne_none_of_some {α : Type} {r : Reader α} {c c' : Cursor}
    (h : (do return some (← r) : Reader (Option α)).run c = .ok (none, c')) : False := by
  obtain ⟨a, c₁, -, h⟩ := run_bind_eq_ok h
  cases h

omit hinner in
/-- A word that calls nothing has not been passed. -/
theorem call?_none {word : String} {c c' : Cursor}
    (h : (call? inner word).run c = .ok (none, c')) : c' = c := by
  unfold call? at h
  obtain ⟨start, c₁, hhere, h⟩ := run_bind_eq_ok h
  cases looks_here c start c₁ hhere
  split at h
  · exact (ne_none_of_some h).elim
  · simp only at h
    split at h
    · exact (ne_none_of_some h).elim
    · split at h
      · exact (ne_none_of_some h).elim
      · cases h
        rfl

/-! ## Operands -/

theorem accounts_bracketed : Accounts Silent [] placeholders (bracketed inner) :=
  .look looks_here fun start => (accounts_pass fun _ => id).skip fun _ =>
    .look looks_peekKeyword fun _ => .ite (fun _ => hinner.subselect start) fun _ =>
      hinner.condition.next fun _ => (skips_require rfl _).skip fun _ => .close rfl (by simp)

/-- The call of a function, or else a phrase that a word begins. -/
theorem accounts_call_or_word (word : String) : Accounts Silent [] placeholders (do
    match ← call? inner word with
    | some t => return t
    | none => wordPhrase word) := by
  intro c t c' hc h
  obtain ⟨t?, c₁, hcall, h⟩ := run_bind_eq_ok h
  cases t? with
  | none =>
      cases call?_none hcall
      exact accounts_wordPhrase word c t c' hc h
  | some u =>
      cases h
      have haccount := accounts_call? hinner word c (some t) c' hc hcall
      simpa using haccount

theorem retains_primary : Retains (primary inner) := by
  refine .peek fun t? => ?_
  split
  · refine (accounts_bracketed hinner).weaken ?_
    rintro - rfl t ⟨⟩
    rfl
  · rename_i word
    have hsilent : ∀ t?, t? = some (Token.word word) → Silent t? := by
      rintro - rfl t ⟨⟩
      rfl
    exact .look looks_peekSecond fun _ => .ite
      (fun _ => (accounts_call_or_word hinner word).weaken hsilent)
      fun _ => (accounts_wordPhrase word).weaken hsilent
  · rename_i token _ _
    split
    · rename_i l hl
      refine accounts_single ?_
      rintro - rfl
      cases token <;> cases hl <;> rfl
    · exact .fail _
  · exact .fail _

theorem retains_signedAtMost (n : Nat) : Retains (signedAtMost inner n) := by
  induction n with
  | zero => exact retains_primary hinner
  | succ n ih =>
      exact .look looks_here fun _ => (skips_eat rfl).skip fun _ => .ite
        (fun _ => ih.next fun _ => .close rfl (by simp))
        fun _ => (skips_eat rfl).skip fun _ => .ite (fun _ => ih) fun _ => retains_primary hinner

theorem retains_signed : Retains (signed inner) :=
  .look looks_get fun _ => retains_signedAtMost hinner _

theorem retains_product : Retains (product inner) := by
  refine retains_chain (fun token op hop => ?_) (retains_signed hinner)
  cases token <;> cases hop <;> rfl

theorem retains_sum : Retains (sum inner) := by
  refine retains_chain (fun token op hop => ?_) (retains_product hinner)
  cases token <;> cases hop <;> rfl

/-! ## Conditions -/

theorem retains_items : RetainsAll (items inner) := by
  have hone : RetainsAll (do return [← primary inner]) :=
    (retains_primary hinner).next fun _ => .pure (by simp)
  refine .peek fun t? => ?_
  split
  · exact hone.always
  · exact hone.always
  · exact (skips_require rfl _).always.skip fun start => .look looks_peekKeyword fun _ => .ite
      (fun _ => (hinner.subselect start).next fun _ => .pure (by simp))
      fun _ => (accounts_commaSeparated (retains_sum hinner)).next fun _ =>
        (skips_require rfl _).skip fun _ => .pure rfl

variable (left : Phrase) (start : Source.Span)

theorem accounts_between :
    Accounts Silent left.placeholders placeholders (between inner left start) :=
  (accounts_pass fun _ => id).skip fun _ => (retains_sum hinner).next fun _ =>
    (skips_requireKeyword _).skip fun _ => (retains_sum hinner).next fun _ =>
      .close rfl (by simp)

theorem accounts_membership :
    Accounts Silent left.placeholders placeholders (membership inner left start) :=
  (accounts_pass fun _ => id).skip fun _ => (retains_items hinner).next fun _ => .close rfl rfl

theorem accounts_likeness :
    Accounts Silent left.placeholders placeholders (likeness inner left start) :=
  (accounts_pass fun _ => id).skip fun _ => (retains_sum hinner).next fun _ =>
    (skips_eatKeyword _).skip fun _ => .ite
      (fun _ => (retains_primary hinner).next fun _ => .close rfl (by simp))
      fun _ => .close rfl (by simp)

theorem accounts_collectionMembership :
    Accounts Silent left.placeholders placeholders (collectionMembership inner left start) :=
  (accounts_pass fun _ => id).skip fun _ => (skips_eatKeyword _).skip fun _ =>
    (retains_primary hinner).next fun _ => .close rfl (by simp)

omit hinner in
theorem accounts_finish (test : Phrase) (negated : Bool) :
    Accounts Anything test.placeholders placeholders
      (if negated then close .not [test] start else pure test) :=
  .ite (fun _ => .close rfl (by simp)) fun _ => .pure rfl

omit hinner in
theorem accounts_stateTest :
    Accounts Silent left.placeholders placeholders (stateTest left start) := by
  refine (accounts_pass fun _ => id).skip fun _ => (skips_eatKeyword _).skip fun negated => ?_
  have hfinish : ∀ l : Label, l.isPlaceholder = false →
      Accounts Anything left.placeholders placeholders (do
        let test ← close l [left] start
        if negated then close .not [test] start else return test) := fun l hl =>
    (Accounts.close hl (by simp)).bind fun test => accounts_finish start test negated
  refine (skips_eatKeyword _).skip fun _ => .ite (fun _ => hfinish .isNull rfl) fun _ => ?_
  refine (skips_eatKeyword _).skip fun _ => .ite (fun _ => hfinish .isEmpty rfl) fun _ => ?_
  exact .failed _

theorem accounts_predicate :
    Accounts Anything left.placeholders placeholders (predicate inner left start) := by
  refine skips_predicateNegation.skip fun negated => .peekKeyword fun k? => ?_
  have hfinish := fun test => accounts_finish start test negated
  have hkeyword : ∀ {k : Keyword} (t? : Option Token), t?.bind Token.keyword? = some k →
      Silent t? := fun t? ht => silent_of_keyword ht
  split
  · exact ((accounts_between hinner left start).weaken hkeyword).bind hfinish
  · exact ((accounts_membership hinner left start).weaken hkeyword).bind hfinish
  · exact ((accounts_likeness hinner left start).weaken hkeyword).bind hfinish
  · exact ((accounts_collectionMembership hinner left start).weaken hkeyword).bind hfinish
  · exact .ite (fun _ => .pure rfl) fun _ => (accounts_stateTest left start).weaken hkeyword
  · exact .pure rfl

theorem retains_existence : Retains (existence inner start) :=
  (skips_require rfl _).skip fun opening => .look looks_peekKeyword fun _ => .ite
    (fun _ => (hinner.subselect opening).next fun _ => .close rfl (by simp))
    fun _ => .fail _

theorem retains_simpleCondition : Retains (simpleCondition inner) := by
  refine .look looks_here fun start => (skips_eatKeyword _).skip fun _ => .ite
    (fun _ => retains_existence hinner start) fun _ => ?_
  refine (retains_sum hinner).next fun left => .peek fun t? => ?_
  split
  · rename_i operator hoperator
    have hpass : Accounts (· = t?) [] (fun _ => []) advance := by
      refine accounts_pass ?_
      rintro - rfl token rfl
      cases token <;> cases hoperator <;> rfl
    exact hpass.skip fun _ => (retains_sum hinner).next fun right => .close rfl (by simp)
  · exact (accounts_predicate hinner left start).always

theorem retains_factorAtMost (n : Nat) : Retains (factorAtMost inner n) := by
  induction n with
  | zero => exact retains_simpleCondition hinner
  | succ n ih =>
      exact .look looks_here fun _ => (skips_eatKeyword _).skip fun _ => .ite
        (fun _ => ih.next fun _ => .close rfl (by simp))
        fun _ => retains_simpleCondition hinner

theorem retains_term : Retains (term inner) :=
  .look looks_here fun _ => (accounts_separated (skips_eatKeyword _)
    (.look looks_get fun _ => retains_factorAtMost hinner _)).next fun _ => .collapse rfl rfl

theorem retains_condition : Retains (condition inner) :=
  .look looks_here fun _ => (accounts_separated (skips_eatKeyword _) (retains_term hinner)).next
    fun _ => .collapse rfl rfl

end Inner

/-! ## Clauses -/

theorem skips_moreName : Skips moreName :=
  (skips_eat rfl).skip fun _ => .ite (fun _ => (skips_requireWord _).skip fun _ => .pure rfl)
    fun _ => .pure rfl

theorem skips_joinStart : Skips joinStart := by
  refine .peekKeyword fun k? => ?_
  have hpass : ∀ {k : Keyword}, Accounts (fun t? => t?.bind Token.keyword? = some k) []
      (fun _ => []) advance := accounts_pass fun _ ht => silent_of_keyword ht
  split
  · exact .pure rfl
  · exact hpass.skip fun _ => .pure rfl
  · exact hpass.skip fun _ => (skips_eatKeyword _).skip fun _ => .pure rfl
  · exact .pure rfl

theorem retains_join? : RetainsAny join? := by
  refine .look looks_here fun start => skips_joinStart.skip fun outer? => ?_
  cases outer? with
  | none => exact .pure rfl
  | some outer =>
      refine (skips_requireKeyword _).skip fun _ => (skips_eatKeyword _).skip fun fetch => ?_
      refine retains_pathExpression.next fun path => (skips_eatKeyword _).skip fun _ => ?_
      have hsome : ∀ j : Phrase, Accounts Anything j.placeholders
          (fun t? => t?.toList.flatMap placeholders) (pure (some j)) := fun j => .pure (by simp)
      have hfinish : ∀ named : Bool, Accounts Anything path.placeholders
          (fun t? => t?.toList.flatMap placeholders) (do
            if named then
              let name ← variableName
              return some (← close (.join outer fetch) [path, name] start)
            else return some (← close (.join outer fetch) [path] start)) := fun named => .ite
        (fun _ => retains_variableName.next fun _ => (Accounts.close rfl (by simp)).bind hsome)
        fun _ => (Accounts.close rfl (by simp)).bind hsome
      exact .ite (fun _ => hfinish true) fun _ => .look looks_aliasNext hfinish

theorem retains_fromItem : Retains fromItem :=
  .look looks_here fun _ => retains_entityName.next fun _ => retains_declaredAlias.next fun _ =>
    (accounts_many retains_join?).next fun _ => .close rfl (by simp)

theorem retains_fromClause : Retains fromClause :=
  (skips_requireKeyword _).skip fun _ => (accounts_commaSeparated retains_fromItem).next fun _ =>
    .close rfl rfl

/-- A clause that is there is a list of one. -/
theorem Retains.singleton {r : Reader Phrase} {ps : List Label}
    (h : Accounts Anything ps placeholders r) :
    Accounts Anything ps (List.flatMap placeholders) (do return [← r]) :=
  h.bind fun _ => .pure (by simp)

/-- A clause that begins with a keyword may be missing. -/
theorem retains_clause (k : Keyword) {body : Source.Span → Reader (List Phrase)}
    (h : ∀ start, RetainsAll (body start)) : RetainsAll (do
      let start ← here
      if ← eatKeyword k then body start else return []) :=
  .look looks_here fun start => (skips_eatKeyword k).skip fun _ => .ite (fun _ => h start)
    fun _ => .pure rfl

section Clauses

variable {operand condition : Reader Phrase} (hoperand : Retains operand)
  (hcondition : Retains condition)

include hoperand in
theorem retains_selectItem : Retains (selectItem operand) :=
  .peekKeyword fun _ => .ite
    (fun _ => (skips_requireKeyword _).always.skip fun _ => (skips_requireWord _).skip fun _ =>
      (skips_many skips_moreName).skip fun _ => (skips_require rfl _).skip fun _ =>
        (accounts_commaSeparated hoperand).next fun _ => (skips_require rfl _).skip fun _ =>
          .close rfl rfl)
    fun _ => hoperand.always

include hoperand in
theorem retains_selectClause : Retains (selectClause operand) :=
  (skips_requireKeyword _).skip fun _ => (skips_eatKeyword _).skip fun _ =>
    (accounts_commaSeparated (retains_selectItem hoperand)).next fun _ => .close rfl rfl

include hcondition in
theorem retains_whereClause : RetainsAll (whereClause condition) :=
  retains_clause _ fun _ => hcondition.next fun _ => Retains.singleton (.close rfl (by simp))

include hcondition in
theorem retains_havingClause : RetainsAll (havingClause condition) :=
  retains_clause _ fun _ => hcondition.next fun _ => Retains.singleton (.close rfl (by simp))

include hoperand in
theorem retains_groupByClause : RetainsAll (groupByClause operand) :=
  retains_clause _ fun _ => (skips_requireKeyword _).skip fun _ =>
    (accounts_commaSeparated hoperand).next fun _ => Retains.singleton (.close rfl rfl)

theorem skips_direction : Skips direction :=
  (skips_eatKeyword _).skip fun _ => .ite (fun _ => .pure rfl)
    fun _ => (skips_eatKeyword _).skip fun _ => .pure rfl

include hoperand in
theorem retains_orderByClause : RetainsAll (orderByClause operand) := by
  have hitem : Retains (orderByItem operand) :=
    .look looks_here fun _ => hoperand.next fun _ => skips_direction.skip fun _ =>
      .close rfl (by simp)
  exact retains_clause _ fun _ => (skips_requireKeyword _).skip fun _ =>
    (accounts_commaSeparated hitem).next fun _ => Retains.singleton (.close rfl rfl)

include hoperand hcondition

theorem retains_selectBody : RetainsAll (selectBody operand condition) :=
  (retains_selectClause hoperand).next fun _ => retains_fromClause.next fun _ =>
    (retains_whereClause hcondition).next fun _ => (retains_groupByClause hoperand).next fun _ =>
      (retains_havingClause hcondition).next fun _ => .pure (by simp)

theorem retains_subselect (start : Source.Span) :
    Retains (subselect operand condition start) :=
  (retains_selectBody hoperand hcondition).next fun _ => (skips_require rfl _).skip fun _ =>
    .close rfl rfl

end Clauses

/-- The readers of every depth account for what they pass. -/
theorem innerRetains_depth (n : Nat) : InnerRetains (depth n) := by
  induction n with
  | zero => exact ⟨.fail _, .fail _, fun _ => .fail _⟩
  | succ n ih =>
      exact ⟨retains_condition ih, retains_sum ih,
        retains_subselect (retains_sum ih) (retains_condition ih)⟩

/-! ## Statements -/

section Statements

variable {inner : Inner} (hinner : InnerRetains inner)
include hinner

theorem retains_selectStatement : Retains (selectStatement inner) :=
  .look looks_here fun _ => (retains_selectBody hinner.operand hinner.condition).next fun _ =>
    (retains_orderByClause hinner.operand).next fun _ => .close rfl (by simp)

theorem retains_updateStatement : Retains (updateStatement inner) := by
  have hassignment : Retains (assignment inner) :=
    .look looks_here fun _ => retains_pathExpression.next fun _ => (skips_require rfl _).skip
      fun _ => hinner.operand.next fun _ => .close rfl (by simp)
  refine (skips_requireKeyword _).skip fun _ => retains_entityName.next fun _ =>
    retains_declaredAlias.next fun _ => (Accounts.close rfl (by simp)).bind fun update => ?_
  refine (skips_requireKeyword _).skip fun _ => (accounts_commaSeparated hassignment).next
    fun assignments => ((Accounts.close rfl rfl).framed update.placeholders).bind fun set => ?_
  exact (retains_whereClause hinner.condition).next fun _ => .close rfl (by simp)

theorem retains_deleteStatement : Retains (deleteStatement inner) :=
  (skips_requireKeyword _).skip fun _ => (skips_requireKeyword _).skip fun _ =>
    retains_entityName.next fun _ => retains_declaredAlias.next fun _ =>
      (Accounts.close rfl (by simp)).bind fun _ =>
        (retains_whereClause hinner.condition).next fun _ => .close rfl (by simp)

theorem retains_accessRule : Retains (accessRule inner) := by
  have hkind : Skips accessKind? := by
    refine .peekKeyword fun k? => .ite (fun hkind => ?_) fun _ => .pure rfl
    cases k? with
    | none => cases hkind
    | some k => exact (accounts_pass fun t? ht => silent_of_keyword ht).skip fun _ => .pure rfl
  exact (skips_requireKeyword _).skip fun _ => (skips_many hkind).skip fun _ =>
    (skips_requireKeyword _).skip fun _ => (skips_requireKeyword _).skip fun _ =>
      retains_entityName.next fun _ => retains_declaredAlias.next fun _ =>
        (retains_whereClause hinner.condition).next fun _ => .close rfl (by simp)

theorem retains_statement : Retains (statement inner) := by
  have hend : Skips endOfText :=
    .look looks_get fun _ => .ite (fun _ => .pure rfl) fun _ => .fail _
  have hfinish : ∀ t : Phrase, Accounts Anything t.placeholders placeholders (do
      endOfText
      return t) := fun t => hend.skip fun _ => .pure rfl
  refine .peekKeyword fun k? => ?_
  split
  · exact (retains_selectStatement hinner).always.bind hfinish
  · exact (retains_updateStatement hinner).always.bind hfinish
  · exact (retains_deleteStatement hinner).always.bind hfinish
  · exact (retains_accessRule hinner).always.bind hfinish
  · exact .failed _

end Statements

/-! ## Texts -/

/-- Behind a whole statement nothing is left. -/
theorem rest_of_statement {inner : Inner} {c c' : Cursor} {t : Phrase}
    (h : (statement inner).run c = .ok (t, c')) : c'.rest = [] := by
  have hend : ∀ {r : Reader Phrase} {d : Cursor},
      (do let u ← r; endOfText; return u : Reader Phrase).run d = .ok (t, c') → c'.rest = [] := by
    intro r d hd
    obtain ⟨u, d₁, -, hd⟩ := run_bind_eq_ok hd
    obtain ⟨_, d₂, hdone, hd⟩ := run_bind_eq_ok hd
    cases hd
    unfold endOfText at hdone
    obtain ⟨e, d₃, hget, hdone⟩ := run_bind_eq_ok hdone
    cases hget
    split at hdone
    · rename_i hempty
      cases hdone
      exact List.isEmpty_iff.mp hempty
    · exact (run_fail_ne_ok _ _ _ _ hdone).elim
  obtain ⟨k?, c₁, -, h⟩ := run_bind_eq_ok h
  split at h <;> exact hend h

/-- The parameters of a phrase are those of the tokens it was read from. -/
theorem placeholders_of_ofText {source : String} {t : Phrase} (h : Phrase.ofText source = .ok t) :
    ∃ lexemes, scan source = .ok lexemes ∧
      t.placeholders = placeholdersOf (lexemes.map Lexeme.token) := by
  obtain ⟨lexemes, hscan, h⟩ := Scope.ok_of_bind h
  refine ⟨lexemes, hscan, ?_⟩
  split at h
  · rename_i u c hread
    cases h
    have haccount := retains_statement (innerRetains_depth _) _ t c trivial hread
    have hrest : c.placeholders = [] := by
      rw [Cursor.placeholders, Cursor.tokens, rest_of_statement hread]
      rfl
    rw [hrest, List.append_nil] at haccount
    exact haccount.symm
  · cases h

/-- However the text of a phrase is read, the parameters are those of the phrase. -/
theorem placeholders_reread {t u : Phrase} (h : DerivesText t)
    (hread : Phrase.ofText t.render = .ok u) : u.placeholders = t.placeholders := by
  obtain ⟨ts, hspells, hts⟩ := h.shows.text
  obtain ⟨lexemes, hscan, htokens⟩ := hspells.scan
  obtain ⟨lexemes', hscan', hu⟩ := placeholders_of_ofText hread
  cases hscan.symm.trans hscan'
  rw [hu, htokens, hts]

end Query.Grammar

end RowGuard
