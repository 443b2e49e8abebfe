import Mathlib.Data.List.Forall2
import RowGuard.Proofs.Parsing

/-!
# Reading given tokens

What a reader does depends on the tokens ahead of it, not on their places in a
text.  Here the tokens are known, and so is what comes behind them: a reader that
takes a phrase as long as it can stops where no token follows that could
continue the phrase.
-/

namespace RowGuard

open Query (ArithmeticOperator Comparison Cursor Grammar.Inner Keyword Label Lexeme Mismatch Phrase
  Reader Token)
open Query.Phrase

/-- The tokens that are left to read. -/
def Query.Cursor.tokens (c : Cursor) : List Token := c.rest.map Lexeme.token

/-- The word that a keyword is written as. -/
def Query.Keyword.token (k : Keyword) : Token := .word k.text

theorem Query.Keyword.ofWord?_text (k : Keyword) : Keyword.ofWord? k.text = some k := by
  cases k <;> decide +kernel

@[simp] theorem Query.Token.keyword?_token (k : Keyword) : k.token.keyword? = some k :=
  k.ofWord?_text

/-- The second phrase is the first one, read from other places. -/
def Query.Phrase.Like (t u : Phrase) : Prop := u.bare = t.bare

theorem Query.Phrase.Like.node {l : Label} {ts us : List Phrase} (h : bareAll us = bareAll ts)
    (s s' : Source.Span) : Like (.node l ts s) (.node l us s') := by
  simp only [Like, bare, h]

theorem Query.Phrase.bareAll_one {t t' : Phrase} (h : Like t t') :
    bareAll [t'] = bareAll [t] := by
  simp only [bareAll, show t'.bare = t.bare from h]

theorem Query.Phrase.bareAll_two {t t' u u' : Phrase} (ht : Like t t') (hu : Like u u') :
    bareAll [t', u'] = bareAll [t, u] := by
  simp only [bareAll, show t'.bare = t.bare from ht, show u'.bare = u.bare from hu]

theorem Query.Phrase.bareAll_three {t t' u u' v v' : Phrase} (ht : Like t t') (hu : Like u u')
    (hv : Like v v') : bareAll [t', u', v'] = bareAll [t, u, v] := by
  simp only [bareAll, show t'.bare = t.bare from ht, show u'.bare = u.bare from hu,
    show v'.bare = v.bare from hv]

namespace Query

/-- What comes next does not continue a phrase. -/
def Ends (continues : Token → Bool) (ts : List Token) : Prop :=
  ∀ t ∈ ts.head?, continues t = false

/-- The first token, which there is, belongs to a class. -/
def Starts (opens : Token → Bool) (ts : List Token) : Prop := ∃ t us, ts = t :: us ∧ opens t = true

end Query

namespace Query.Reader

variable {α β : Type}

/-- With the tokens `ts` ahead the reader gives something with a property, and `us` are left. -/
def Reads (P : α → Prop) (r : Reader α) (ts us : List Token) : Prop :=
  ∀ c : Cursor, c.tokens = ts → ∃ a c', r.run c = .ok (a, c') ∧ P a ∧ c'.tokens = us

variable {P : α → Prop} {Q : β → Prop} {ts us vs : List Token} {t : Token} {k : Keyword}

theorem Reads.pure {a : α} (h : P a) : Reads P (pure a : Reader α) ts ts :=
  fun c hc => ⟨a, c, rfl, h, hc⟩

theorem Reads.bind {r : Reader α} {f : α → Reader β} {m : List Token} (hr : Reads P r ts m)
    (hf : ∀ a, P a → Reads Q (f a) m vs) : Reads Q (r >>= f) ts vs := by
  intro c hc
  obtain ⟨a, c₁, hrun, ha, hc₁⟩ := hr c hc
  obtain ⟨b, c₂, hrun', hb, hc₂⟩ := hf a ha c₁ hc₁
  exact ⟨b, c₂, by rw [StateT.run_bind, hrun]; exact hrun', hb, hc₂⟩

theorem Reads.mono {P' : α → Prop} {r : Reader α} (h : Reads P r ts us) (hP : ∀ a, P a → P' a) :
    Reads P' r ts us := by
  intro c hc
  obtain ⟨a, c', hrun, ha, hc'⟩ := h c hc
  exact ⟨a, c', hrun, hP a ha, hc'⟩

theorem reads_get : Reads (fun c => c.tokens = ts) (get : Reader Cursor) ts ts :=
  fun c hc => ⟨c, c, rfl, hc, hc⟩

theorem reads_here : Reads (fun _ => True) here ts ts :=
  reads_get.bind fun _ _ => .pure trivial

theorem reads_peek : Reads (· = ts.head?) peek ts ts :=
  reads_get.bind fun c hc => .pure (by rw [← hc, Cursor.tokens, List.head?_map])

theorem reads_peekSecond : Reads (· = ts.tail.head?) peekSecond ts ts :=
  reads_get.bind fun c hc => .pure (by rw [← hc, Cursor.tokens, ← List.map_tail, List.head?_map])

/-- The keyword that comes next, if one does. -/
def nextKeyword? (ts : List Token) : Option Keyword := ts.head?.bind Token.keyword?

theorem reads_peekKeyword : Reads (· = nextKeyword? ts) peekKeyword ts ts :=
  reads_peek.bind fun t? ht => .pure (by rw [ht, nextKeyword?])

theorem reads_advance : Reads (fun _ => True) advance (t :: ts) ts := by
  intro c hc
  obtain ⟨rest, last, stop⟩ := c
  cases rest with
  | nil => cases hc
  | cons lexeme rest =>
      obtain ⟨-, hrest⟩ := List.cons.inj hc
      exact ⟨(), ⟨rest, lexeme.span, stop⟩, rfl, trivial, hrest⟩

theorem reads_eat : Reads (· = true) (eat t) (t :: ts) ts := by
  refine reads_peek.bind fun t? ht => ?_
  rw [ht, List.head?_cons, if_pos rfl]
  exact reads_advance.bind fun _ _ => .pure rfl

theorem reads_eat_other (h : ts.head? ≠ some t) : Reads (· = false) (eat t) ts ts := by
  refine reads_peek.bind fun t? ht => ?_
  rw [ht, if_neg h]
  exact .pure rfl

theorem reads_eatKeyword (h : t.keyword? = some k) :
    Reads (· = true) (eatKeyword k) (t :: ts) ts := by
  refine reads_peekKeyword.bind fun k? hk => ?_
  rw [hk, nextKeyword?, List.head?_cons, Option.bind_some, h, if_pos rfl]
  exact reads_advance.bind fun _ _ => .pure rfl

theorem reads_eatKeyword_other (h : nextKeyword? ts ≠ some k) :
    Reads (· = false) (eatKeyword k) ts ts := by
  refine reads_peekKeyword.bind fun k? hk => ?_
  rw [hk, if_neg h]
  exact .pure rfl

theorem reads_if_eat {r r' : Reader α} (h : Reads P r ts us) :
    Reads P (do if ← eat t then r else r') (t :: ts) us :=
  reads_eat.bind fun b hb => by rwa [hb, if_pos rfl]

theorem reads_else_eat {r r' : Reader α} (hne : ts.head? ≠ some t) (h : Reads P r' ts us) :
    Reads P (do if ← eat t then r else r') ts us :=
  (reads_eat_other hne).bind fun b hb => by rwa [hb, if_neg Bool.false_ne_true]

theorem reads_if_keyword {r r' : Reader α} (hk : t.keyword? = some k) (h : Reads P r ts us) :
    Reads P (do if ← eatKeyword k then r else r') (t :: ts) us :=
  (reads_eatKeyword hk).bind fun b hb => by rwa [hb, if_pos rfl]

theorem reads_else_keyword {r r' : Reader α} (hne : nextKeyword? ts ≠ some k)
    (h : Reads P r' ts us) : Reads P (do if ← eatKeyword k then r else r') ts us :=
  (reads_eatKeyword_other hne).bind fun b hb => by rwa [hb, if_neg Bool.false_ne_true]

theorem reads_when_keyword {r r' : Reader α} (hk : t.keyword? = some k)
    (h : Reads P r (t :: ts) us) :
    Reads P (do if (← peekKeyword) = some k then r else r') (t :: ts) us :=
  reads_peekKeyword.bind fun k? hk? => by
    rwa [hk?, nextKeyword?, List.head?_cons, Option.bind_some, hk, if_pos rfl]

theorem reads_unless_keyword {r r' : Reader α} (hne : nextKeyword? ts ≠ some k)
    (h : Reads P r' ts us) : Reads P (do if (← peekKeyword) = some k then r else r') ts us :=
  reads_peekKeyword.bind fun k? hk? => by rwa [hk?, if_neg hne]

theorem reads_require (expected : String) :
    Reads (fun _ => True) (require t expected) (t :: ts) ts :=
  reads_eat.bind fun b hb => by
    rw [hb, if_pos rfl]
    exact reads_get.bind fun _ _ => .pure trivial

theorem reads_requireKeyword (h : t.keyword? = some k) :
    Reads (fun _ => True) (requireKeyword k) (t :: ts) ts :=
  (reads_eatKeyword h).bind fun b hb => by
    rw [hb, if_pos rfl]
    exact reads_get.bind fun _ _ => .pure trivial

theorem reads_requireWord (w expected : String) :
    Reads (· = w) (requireWord expected) (.word w :: ts) ts := by
  refine reads_peek.bind fun t? ht => ?_
  subst ht
  exact reads_advance.bind fun _ _ => .pure rfl

theorem reads_close {l : Label} {c ds : List Phrase} {start : Source.Span} (s : Source.Span)
    (h : bareAll ds = bareAll c) :
    Reads (Like (.node l c s)) (close l ds start) ts ts :=
  reads_get.bind fun _ _ => .pure (.node h s _)

theorem reads_collapse_one {l : Label} {p : Phrase} {ds : List Phrase} {start : Source.Span}
    (h : bareAll ds = bareAll [p]) : Reads (Like p) (collapse l ds start) ts ts := by
  rcases ds with - | ⟨d, - | ⟨e, ds⟩⟩
  · cases h
  · exact .pure (List.cons.inj h).1
  · cases (List.cons.inj h).2

theorem reads_collapse_many {l : Label} {p q : Phrase} {cs ds : List Phrase}
    {start : Source.Span} (s : Source.Span) (h : bareAll ds = bareAll (p :: q :: cs)) :
    Reads (Like (.node l (p :: q :: cs) s)) (collapse l ds start) ts ts := by
  rcases ds with - | ⟨d, - | ⟨e, ds⟩⟩
  · cases h
  · cases (List.cons.inj h).2
  · exact reads_close s h

/-! ## Repetitions -/

/-- A step that takes each of some lists of tokens, and nothing where the last of them ends, takes
all of them.  `F` is what has to come next for a step to stop where it should. -/
theorem reads_repeatAtMost {γ : Type} {R : γ → α → Prop} {step : Reader (Option α)}
    {F : List Token → Prop} {ps : List (γ × List Token)}
    (hstep : ∀ p ∈ ps, ∀ us, F us →
      Reads (fun a? => ∃ a, a? = some a ∧ R p.1 a) step (p.2 ++ us) us)
    (hF : ∀ p ∈ ps, ∀ us, F (p.2 ++ us)) (hus : F us)
    (hstop : Reads (· = none) step us us) :
    ∀ n, ps.length ≤ n → Reads (List.Forall₂ R (ps.map Prod.fst))
      (repeatAtMost step n) ((ps.map Prod.snd).flatten ++ us) us := by
  induction ps with
  | nil =>
      intro n _
      cases n with
      | zero => exact .pure .nil
      | succ n =>
          refine hstop.bind fun a? ha => ?_
          subst ha
          exact .pure .nil
  | cons p ps ih =>
      intro n hn
      cases n with
      | zero => cases hn
      | succ n =>
          have hrest : F ((ps.map Prod.snd).flatten ++ us) := by
            cases ps with
            | nil => exact hus
            | cons q qs =>
                rw [List.map_cons, List.flatten_cons, List.append_assoc]
                exact hF q (by simp) _
          simp only [List.map_cons, List.flatten_cons, List.append_assoc]
          refine (hstep p (by simp) _ hrest).bind fun a? ha => ?_
          obtain ⟨a, rfl, ha⟩ := ha
          exact (ih (fun q hq => hstep q (List.mem_cons_of_mem p hq))
            (fun q hq => hF q (List.mem_cons_of_mem p hq)) n
            (Nat.le_of_succ_le_succ hn)).bind fun as has => .pure (.cons ha has)

theorem length_le_flatten {γ : Type} {ps : List (γ × List Token)} (h : ∀ p ∈ ps, p.2 ≠ []) :
    ps.length ≤ (ps.map Prod.snd).flatten.length := by
  induction ps with
  | nil => simp
  | cons p ps ih =>
      have hp := List.length_pos_iff.mpr (h p (by simp))
      have hps := ih fun q hq => h q (List.mem_cons_of_mem p hq)
      simp only [List.map_cons, List.flatten_cons, List.length_cons, List.length_append]
      omega

/-- Every step passes a token, so there are enough repetitions. -/
theorem reads_many {γ : Type} {R : γ → α → Prop} {step : Reader (Option α)}
    {F : List Token → Prop} {ps : List (γ × List Token)} (hne : ∀ p ∈ ps, p.2 ≠ [])
    (hstep : ∀ p ∈ ps, ∀ us, F us →
      Reads (fun a? => ∃ a, a? = some a ∧ R p.1 a) step (p.2 ++ us) us)
    (hF : ∀ p ∈ ps, ∀ us, F (p.2 ++ us)) (hus : F us)
    (hstop : Reads (· = none) step us us) :
    Reads (List.Forall₂ R (ps.map Prod.fst)) (many step) ((ps.map Prod.snd).flatten ++ us) us := by
  refine reads_get.bind fun c hc => reads_repeatAtMost hstep hF hus hstop _ ?_
  have hlength := congrArg List.length hc
  rw [Cursor.tokens, List.length_map, List.length_append] at hlength
  have := length_le_flatten hne
  omega

theorem bareAll_of_forall₂ {ts us : List Phrase} (h : List.Forall₂ Like ts us) :
    bareAll us = bareAll ts := by
  induction h with
  | nil => rfl
  | cons h _ ih => rw [bareAll, bareAll, ih, h]

/-- The tokens of some phrases with a token between any two of them. -/
def separatedBy (separator : Token) (first : List Token) (others : List (List Token)) :
    List Token :=
  first ++ (others.map (separator :: ·)).flatten

theorem length_le_separatedBy {γ : Type} {separator : Token} {p : γ × List Token}
    {ps : List (γ × List Token)} : ∀ q ∈ p :: ps,
      q.2.length ≤ (separatedBy separator p.2 (ps.map Prod.snd)).length := by
  intro q hq
  rw [separatedBy, List.length_append]
  rcases List.mem_cons.mp hq with rfl | hq
  · exact Nat.le_add_right _ _
  · have hmem : (separator :: q.2) ∈ (ps.map Prod.snd).map (separator :: ·) :=
      List.mem_map_of_mem (List.mem_map_of_mem hq)
    have hle := (List.sublist_flatten_of_mem hmem).length_le
    rw [List.length_cons] at hle
    omega

/-- Phrases that are read one by one are read with separators between them. -/
theorem reads_separated {more : Reader Bool} {item : Reader Phrase} {separator : Token}
    {p : Phrase × List Token} {ps : List (Phrase × List Token)} {continues : Token → Bool}
    (hmore : ∀ ts, Reads (· = true) more (separator :: ts) ts)
    (hitem : ∀ q ∈ p :: ps, ∀ us, Ends continues us → Reads (Like q.1) item (q.2 ++ us) us)
    (hseparator : continues separator = false) (hus : Ends continues us)
    (hstop : Reads (· = false) more us us) :
    Reads (fun as => bareAll as = bareAll (p.1 :: ps.map Prod.fst)) (separated more item)
      (separatedBy separator p.2 (ps.map Prod.snd) ++ us) us := by
  have hnext : Ends continues (((ps.map Prod.snd).map (separator :: ·)).flatten ++ us) := by
    cases ps with
    | nil => exact hus
    | cons q qs =>
        intro t ht
        cases ht
        exact hseparator
  rw [separatedBy, List.append_assoc]
  refine (hitem p (by simp) _ hnext).bind fun a ha => ?_
  refine Reads.bind (P := List.Forall₂ Like (ps.map Prod.fst)) ?_ fun as has => .pure ?_
  · suffices hmany : Reads
        (List.Forall₂ Like ((ps.map fun q => (q.1, separator :: q.2)).map Prod.fst))
        (many do if ← more then return some (← item) else return none)
        (((ps.map fun q => (q.1, separator :: q.2)).map Prod.snd).flatten ++ us) us by
      simpa only [List.map_map, Function.comp_def] using hmany
    refine reads_many (F := Ends continues) ?_ ?_ ?_ hus ?_
    · intro q hq
      obtain ⟨r, -, rfl⟩ := List.mem_map.mp hq
      exact List.cons_ne_nil _ _
    · intro q hq vs hvs
      obtain ⟨r, hr, rfl⟩ := List.mem_map.mp hq
      refine (hmore _).bind fun b hb => ?_
      rw [hb, if_pos rfl]
      exact (hitem r (List.mem_cons_of_mem p hr) vs hvs).bind fun u hu => .pure ⟨u, rfl, hu⟩
    · intro q hq vs t ht
      obtain ⟨r, -, rfl⟩ := List.mem_map.mp hq
      cases ht
      exact hseparator
    · refine hstop.bind fun b hb => ?_
      rw [hb, if_neg Bool.false_ne_true]
      exact .pure rfl
  · rw [bareAll, bareAll, bareAll_of_forall₂ has, ha]

theorem reads_commaSeparated {item : Reader Phrase} {p : Phrase × List Token}
    {ps : List (Phrase × List Token)} {continues : Token → Bool}
    (hitem : ∀ q ∈ p :: ps, ∀ us, Ends continues us → Reads (Like q.1) item (q.2 ++ us) us)
    (hcomma : continues .comma = false) (hus : Ends continues us)
    (hstop : us.head? ≠ some .comma) :
    Reads (fun as => bareAll as = bareAll (p.1 :: ps.map Prod.fst)) (commaSeparated item)
      (separatedBy .comma p.2 (ps.map Prod.snd) ++ us) us :=
  reads_separated (fun _ => reads_eat) hitem hcomma hus (reads_eat_other hstop)

/-- A keyword that may be left out. -/
def optionally (b : Bool) (k : Keyword) : List Token := if b then [k.token] else []

theorem reads_optionally (b : Bool) (hne : nextKeyword? ts ≠ some k) :
    Reads (· = b) (eatKeyword k) (optionally b k ++ ts) ts := by
  cases b with
  | true => exact reads_eatKeyword (Token.keyword?_token k)
  | false => exact reads_eatKeyword_other hne

theorem length_of_bareAll {as bs : List Phrase} (h : bareAll as = bareAll bs) :
    as.length = bs.length := by
  have hlength : ∀ cs : List Phrase, (bareAll cs).length = cs.length := by
    intro cs
    induction cs with
    | nil => rfl
    | cons c cs ih => rw [bareAll, List.length_cons, ih, List.length_cons]
  rw [← hlength as, h, hlength bs]

end Query.Reader

namespace Query.Grammar

open Reader

/-! ## Classes of tokens -/

/-- The tokens that continue a path or turn its name into a call. -/
def continuesPath (t : Token) : Bool := t = .dot || t = .opening

def continuesProduct (t : Token) : Bool := continuesPath t || (productOperator? t).isSome

def continuesSum (t : Token) : Bool := continuesProduct t || (sumOperator? t).isSome

/-- The tokens behind an operand that make a condition of it. -/
def continuesSimple (t : Token) : Bool :=
  continuesSum t || (comparison? t).isSome ||
    t.keyword?.any fun k => takesNegation k || k = .is || k = .not || k = .escape

def continuesTerm (t : Token) : Bool := continuesSimple t || t.keyword? = some .and

def continuesCondition (t : Token) : Bool := continuesTerm t || t.keyword? = some .or

/-- The tokens that phrases without operators and signs begin with. -/
def opensPrimary : Token → Bool
  | .opening => true
  | .word w => (Keyword.ofWord? w).all fun k => (keywordLabel? k).isSome || !k.isReserved
  | t => (literalLabel? t).isSome

def opensOperand (t : Token) : Bool := opensPrimary t || t = .minus

def opensSimple (t : Token) : Bool := opensOperand t || t.keyword? = some .exists_

def opensCondition (t : Token) : Bool := opensSimple t || t.keyword? = some .not

def continuesList (t : Token) : Bool := continuesSum t || t = .comma

/-- The words that may give a name behind a path. -/
def isAliasWord : Token → Bool
  | .word w => (Keyword.ofWord? w).all fun k => !k.isReserved || k = .as_
  | _ => false

def continuesJoin (t : Token) : Bool := continuesPath t || isAliasWord t

def opensJoin (t : Token) : Bool := t.keyword?.any fun k => k = .join || k = .inner || k = .left

def continuesItem (t : Token) : Bool := continuesJoin t || opensJoin t

def continuesItems (t : Token) : Bool := continuesItem t || t = .comma

def opensSelected (t : Token) : Bool := opensOperand t || t.keyword? = some .new

def continuesOrder (t : Token) : Bool :=
  continuesSum t || t.keyword?.any fun k => k = .asc || k = .desc

def continuesOrders (t : Token) : Bool := continuesOrder t || t = .comma

end Query.Grammar

namespace Query

open Grammar

variable {ts us : List Token}

theorem Ends.mono {p q : Token → Bool} (h : Ends p ts) (hpq : ∀ t, q t = true → p t = true) :
    Ends q ts := by
  intro t ht
  cases hq : q t with
  | false => rfl
  | true => exact absurd (hpq t hq) (by simp [h t ht])

theorem Ends.product (h : Ends continuesProduct ts) : Ends continuesPath ts :=
  h.mono fun t ht => by simp [continuesProduct, ht]

theorem Ends.sum (h : Ends continuesSum ts) : Ends continuesProduct ts :=
  h.mono fun t ht => by simp [continuesSum, ht]

theorem Ends.simple (h : Ends continuesSimple ts) : Ends continuesSum ts :=
  h.mono fun t ht => by simp [continuesSimple, ht]

theorem Ends.term (h : Ends continuesTerm ts) : Ends continuesSimple ts :=
  h.mono fun t ht => by simp [continuesTerm, ht]

theorem Ends.condition (h : Ends continuesCondition ts) : Ends continuesTerm ts :=
  h.mono fun t ht => by simp [continuesCondition, ht]

/-- What begins with a token that does not continue a phrase ends it. -/
theorem ends_cons {p : Token → Bool} {t : Token} (h : p t = false) : Ends p (t :: ts) := by
  rintro u ⟨⟩
  exact h

theorem Ends.head?_ne {p : Token → Bool} (h : Ends p ts) {t : Token} (ht : p t = true) :
    ts.head? ≠ some t := by
  intro hhead
  rw [h t hhead] at ht
  cases ht

theorem Starts.mono {p q : Token → Bool} (h : Starts p ts) (hpq : ∀ t, p t = true → q t = true) :
    Starts q ts := by
  obtain ⟨t, us, rfl, ht⟩ := h
  exact ⟨t, us, rfl, hpq t ht⟩

theorem Starts.append {p : Token → Bool} (h : Starts p ts) (us : List Token) :
    Starts p (ts ++ us) := by
  obtain ⟨t, ts, rfl, ht⟩ := h
  exact ⟨t, ts ++ us, rfl, ht⟩

theorem Ends.list (h : Ends continuesList ts) : Ends continuesSum ts :=
  h.mono fun t ht => by simp [continuesList, ht]

theorem Ends.join (h : Ends continuesJoin ts) : Ends continuesPath ts :=
  h.mono fun t ht => by simp [continuesJoin, ht]

theorem Ends.item (h : Ends continuesItem ts) : Ends continuesJoin ts :=
  h.mono fun t ht => by simp [continuesItem, ht]

theorem Ends.items (h : Ends continuesItems ts) : Ends continuesItem ts :=
  h.mono fun t ht => by simp [continuesItems, ht]

theorem Ends.order (h : Ends continuesOrder ts) : Ends continuesSum ts :=
  h.mono fun t ht => by simp [continuesOrder, ht]

theorem Ends.orders (h : Ends continuesOrders ts) : Ends continuesOrder ts :=
  h.mono fun t ht => by simp [continuesOrders, ht]

theorem Starts.operand (h : Starts opensPrimary ts) : Starts opensOperand ts :=
  h.mono fun t ht => by simp [opensOperand, ht]

theorem Starts.simple (h : Starts opensOperand ts) : Starts opensSimple ts :=
  h.mono fun t ht => by simp [opensSimple, ht]

theorem Starts.condition (h : Starts opensSimple ts) : Starts opensCondition ts :=
  h.mono fun t ht => by simp [opensCondition, ht]

theorem Starts.head?_ne {p : Token → Bool} (h : Starts p ts) {t : Token} (ht : p t = false) :
    (ts ++ us).head? ≠ some t := by
  obtain ⟨u, us', rfl, hu⟩ := h
  intro hhead
  cases hhead
  rw [ht] at hu
  cases hu

/-- Whether a word that spells a keyword opens an operand depends on the keyword. -/
theorem Grammar.opensOperand_keyword {t : Token} {k : Keyword} (h : t.keyword? = some k) :
    opensOperand t = opensOperand k.token := by
  cases t with
  | word w =>
      have hw : Keyword.ofWord? w = some k := h
      simp [opensOperand, opensPrimary, Keyword.token, hw, Keyword.ofWord?_text]
  | _ => cases h

theorem Grammar.opensSimple_keyword {t : Token} {k : Keyword} (h : t.keyword? = some k) :
    opensSimple t = opensSimple k.token := by
  simp only [opensSimple, opensOperand_keyword h, h, Token.keyword?_token]

theorem Grammar.opensCondition_keyword {t : Token} {k : Keyword} (h : t.keyword? = some k) :
    opensCondition t = opensCondition k.token := by
  simp only [opensCondition, opensSimple_keyword h, h, Token.keyword?_token]

/-- A phrase does not begin with a keyword that opens none of its kind. -/
theorem Starts.ne_keyword {p : Token → Bool}
    (hp : ∀ {t : Token} {k : Keyword}, t.keyword? = some k → p t = p k.token)
    {k : Keyword} (h : Starts p ts) (hk : p k.token = false) (us : List Token) :
    Reader.nextKeyword? (ts ++ us) ≠ some k := by
  obtain ⟨t, ts, rfl, ht⟩ := h
  intro hnext
  rw [hp hnext, hk] at ht
  cases ht

/-- A keyword that would continue a phrase does not follow it. -/
theorem Ends.ne_keyword {p : Token → Bool} {k : Keyword}
    (hp : ∀ {t : Token}, t.keyword? = some k → p t = true) (h : Ends p ts) :
    Reader.nextKeyword? ts ≠ some k := by
  cases ts with
  | nil => exact fun hnext => by cases hnext
  | cons t ts =>
      intro hnext
      rw [Reader.nextKeyword?, List.head?_cons, Option.bind_some] at hnext
      exact absurd (hp hnext) (by simp [h t rfl])

/-- What may follow a condition without connectives is no keyword of a predicate. -/
theorem Ends.simple_keyword {k : Keyword} (h : Ends continuesSimple ts)
    (hk : Reader.nextKeyword? ts = some k) :
    takesNegation k = false ∧ k ≠ .is ∧ k ≠ .not ∧ k ≠ .escape := by
  cases ts with
  | nil => cases hk
  | cons t ts =>
      have ht : t.keyword? = some k := hk
      have hcontinues := h t rfl
      have hall : continuesSum t = false ∧ comparison? t = none ∧ takesNegation k = false ∧
          k ≠ .is ∧ k ≠ .not ∧ k ≠ .escape := by
        simpa [continuesSimple, ht, and_assoc] using hcontinues
      exact hall.2.2

end Query

namespace Query.Grammar

open Reader

/-! ## Chains of operators -/

section Chains

variable {operator? : Token → Option ArithmeticOperator} {operand : Reader Phrase}
  {ts us : List Token} {t : Phrase}

/-- Reading a chain comes to `t` with `us` left, and whatever is read from there on is read. -/
def Resumes (operator? : Token → Option ArithmeticOperator) (operand : Reader Phrase) (t : Phrase)
    (ts us : List Token) : Prop :=
  ∀ (Q : Phrase → Prop) vs, (∀ u start n, Like t u → us.length ≤ n →
    Reads Q (chainAtMost operator? operand start n u) us vs) →
    Reads Q (chain operator? operand) (ts ++ us) vs

/-- A chain begins with its first operand. -/
theorem Resumes.first (h : Reads (Like t) operand (ts ++ us) us) :
    Resumes operator? operand t ts us := by
  intro Q vs hmore
  refine reads_here.bind fun start _ => h.bind fun u hu => reads_get.bind fun c hc => ?_
  exact hmore u start _ hu (Nat.le_of_eq (by rw [← hc, Cursor.tokens, List.length_map]))

/-- A chain goes on with an operator and an operand. -/
theorem Resumes.step {token : Token} {op : ArithmeticOperator} {r : Phrase} {rs : List Token}
    (s : Source.Span) (h : Resumes operator? operand t ts (token :: rs ++ us))
    (hop : operator? token = some op) (hr : Reads (Like r) operand (rs ++ us) us) :
    Resumes operator? operand (.node (.arithmetic op) [t, r] s) (ts ++ token :: rs) us := by
  intro Q vs hmore
  rw [List.append_assoc]
  refine h Q vs fun u start n hu hn => ?_
  cases n with
  | zero => simp at hn
  | succ n =>
      refine reads_peek.bind fun t? ht => ?_
      simp only [ht, List.cons_append, List.head?_cons, Option.bind_some, hop]
      refine reads_advance.bind fun _ _ => hr.bind fun v hv => ?_
      refine (reads_close s (c := [t, r]) ?_).bind fun w hw => hmore w start n hw ?_
      · exact bareAll_two hu hv
      · simp only [List.cons_append, List.length_cons, List.length_append] at hn
        omega

/-- A chain ends where no operator follows. -/
theorem Resumes.reads (h : Resumes operator? operand t ts us)
    (hus : ∀ token ∈ us.head?, operator? token = none) :
    Reads (Like t) (chain operator? operand) (ts ++ us) us := by
  refine h _ us fun u start n hu _ => ?_
  cases n with
  | zero => exact .pure hu
  | succ n =>
      refine reads_peek.bind fun t? ht => ?_
      have hnone : us.head?.bind operator? = none := by
        cases hhead : us.head? with
        | none => rfl
        | some token => exact hus token hhead
      simp only [ht, hnone]
      exact .pure hu

end Chains

end Query.Grammar

end RowGuard
