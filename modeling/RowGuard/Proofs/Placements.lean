import Mathlib.Data.Nat.Basic
import Mathlib.Order.Basic
import RowGuard.Proofs.Shapes
import RowGuard.Query.Grammar.Statement

/-!
# Where phrases stand

The span of a phrase is that of some tokens in a row: it begins where the first of them
begins and ends where the last one does.  Here places are counted in tokens.  A reader that
begins behind `i` tokens stops behind `j` of them, and the phrases that it makes stand
between the two, one behind the other.
-/

namespace RowGuard

open Query (Cursor Keyword Label Lexeme Mismatch Phrase Reader Token)

namespace Query

variable {ts : List Lexeme} {i j k : Nat}

/-- The span is that of the `i`-th token and all behind it, the `j`-th excluded. -/
def Covers (ts : List Lexeme) (i j : Nat) (s : Source.Span) : Prop :=
  i < j ∧ ∃ first last, ts[i]? = some first ∧ ts[j - 1]? = some last ∧
    s = first.span.merge last.span

/-- The phrases cover some of the tokens from the `i`-th on up to the `j`-th, one phrase
behind the other, and so do the children of each among the tokens that it covers. -/
inductive Placed (ts : List Lexeme) : Nat → Nat → List Phrase → Prop
  | nil {i j : Nat} : i ≤ j → Placed ts i j []
  | cons {i a b j : Nat} {l : Label} {cs us : List Phrase} {s : Source.Span} : i ≤ a →
      Covers ts a b s → Placed ts a b cs → Placed ts b j us → Placed ts i j (.node l cs s :: us)

namespace Placed

theorem le {us : List Phrase} (h : Placed ts i j us) : i ≤ j := by
  induction h with
  | nil hle => exact hle
  | cons hle hs _ _ _ ih => exact hle.trans (hs.1.le.trans ih)

theorem lt {t : Phrase} {us : List Phrase} (h : Placed ts i j (t :: us)) : i < j := by
  cases h with
  | cons hle hs _ hus => exact hle.trans_lt (hs.1.trans_le hus.le)

theorem mono {us : List Phrase} (h : Placed ts i j us) {i' j' : Nat} (hi : i' ≤ i)
    (hj : j ≤ j') : Placed ts i' j' us := by
  induction h generalizing i' j' with
  | nil hle => exact .nil (hi.trans (hle.trans hj))
  | cons hle hs hcs _ _ ih => exact .cons (hi.trans hle) hs hcs (ih le_rfl hj)

/-- What is read later stands behind what was read before. -/
theorem append {us vs : List Phrase} {j' : Nat} (h : Placed ts i j us) (hle : j ≤ j')
    (h' : Placed ts j' k vs) : Placed ts i k (us ++ vs) := by
  induction h with
  | nil hi => exact h'.mono (hi.trans hle) le_rfl
  | cons hi hs hcs _ _ ih => exact .cons hi hs hcs (ih hle)

end Placed

/-- The phrase covers the tokens from the `i`-th up to the `j`-th, and its children stand
among them. -/
def Fills (ts : List Lexeme) (i j : Nat) (t : Phrase) : Prop :=
  Covers ts i j t.span ∧ Placed ts i j t.children

theorem Fills.placed {t : Phrase} (h : Fills ts i j t) : Placed ts i j [t] := by
  cases t
  exact .cons le_rfl h.1 h.2 (.nil le_rfl)

/-- The span is that of the `i`-th token if there is one. -/
def Opens (ts : List Lexeme) (i : Nat) (s : Source.Span) : Prop :=
  ∀ x, ts[i]? = some x → s = x.span

theorem Opens.placed_leaf {s : Source.Span} (h : Opens ts i s) (l : Label)
    (hi : i < ts.length) (hj : i < j) : Placed ts i j [.leaf l s] := by
  have hfirst : ts[i]? = some ts[i] := List.getElem?_eq_getElem hi
  have hspan : s = ts[i].span.merge ts[i].span := by
    rw [h _ hfirst]
    simp [Source.Span.merge]
  have hcovers : Covers ts i (i + 1) s := ⟨Nat.lt_succ_self i, _, _, hfirst, hfirst, hspan⟩
  exact .cons le_rfl hcovers (.nil (Nat.le_succ i)) (.nil hj)

/-- The cursor stands behind the first `n` tokens. -/
structure Cursor.Behind (ts : List Lexeme) (n : Nat) (c : Cursor) : Prop where
  rest_eq : c.rest = ts.drop n
  le_length : n ≤ ts.length
  last_eq : ∀ x, 0 < n → ts[n - 1]? = some x → c.last = x.span

theorem Cursor.Behind.head? {c : Cursor} (h : c.Behind ts i) : c.rest.head? = ts[i]? := by
  rw [h.rest_eq, List.head?_drop]

end Query

namespace Query.Reader

variable {α β : Type}

/-- Whatever the reader returns from behind `i` tokens on, it has only gone forward, and the
result and the place where it stops have a property. -/
def Passes (ts : List Lexeme) (i : Nat) (P : α → Nat → Prop) (r : Reader α) : Prop :=
  ∀ c a c', c.Behind ts i → r.run c = .ok (a, c') → ∃ j, i ≤ j ∧ c'.Behind ts j ∧ P a j

variable {ts : List Lexeme} {i j k : Nat} {P : α → Nat → Prop} {Q : β → Nat → Prop}

theorem Passes.pure {a : α} (h : P a i) : Passes ts i P (pure a : Reader α) := by
  intro c b c' hc hr
  cases hr
  exact ⟨i, le_rfl, hc, h⟩

theorem Passes.bind {r : Reader α} {f : α → Reader β} (hr : Passes ts i P r)
    (hf : ∀ a j, i ≤ j → P a j → Passes ts j Q (f a)) : Passes ts i Q (r >>= f) := by
  intro c b c' hc h
  rw [StateT.run_bind] at h
  obtain ⟨⟨a, c₁⟩, ha, hb⟩ := Scope.ok_of_bind h
  obtain ⟨j, hij, hc₁, hP⟩ := hr c a c₁ hc ha
  obtain ⟨k, hjk, hc', hQ⟩ := hf a j hij hP c₁ b c' hc₁ hb
  exact ⟨k, hij.trans hjk, hc', hQ⟩

/-- What only looks ahead leaves the cursor where it is. -/
theorem Passes.look {P : α → Prop} {r : Reader α} {f : α → Reader β}
    (hr : Passes ts i (fun a j => j = i ∧ P a) r) (hf : ∀ a, P a → Passes ts i Q (f a)) :
    Passes ts i Q (r >>= f) :=
  hr.bind fun a j _ ⟨hj, ha⟩ => by
    subst hj
    exact hf a ha

theorem Passes.mono {P' : α → Nat → Prop} {r : Reader α} (h : Passes ts i P r)
    (hP : ∀ a j, i ≤ j → P a j → P' a j) : Passes ts i P' r := by
  intro c a c' hc hr
  obtain ⟨j, hij, hc', ha⟩ := h c a c' hc hr
  exact ⟨j, hij, hc', hP a j hij ha⟩

theorem Passes.ite {p : Prop} [Decidable p] {r r' : Reader α} (h : p → Passes ts i P r)
    (h' : ¬p → Passes ts i P r') : Passes ts i P (if p then r else r') := by
  split
  · exact h ‹p›
  · exact h' ‹¬p›

theorem passes_throw (e : Mismatch) : Passes ts i P (throw e : Reader α) := by
  intro c a c' _ h
  cases h

theorem passes_get : Passes ts i (fun c j => j = i ∧ c.Behind ts i) (get : Reader Cursor) := by
  intro c a c' hc h
  cases h
  exact ⟨i, le_rfl, hc, rfl, hc⟩

theorem passes_fail (expected : String) : Passes ts i P (fail expected : Reader α) := by
  refine passes_get.look fun c _ => ?_
  split <;> exact passes_throw _

theorem passes_here : Passes ts i (fun s j => j = i ∧ Opens ts i s) here := by
  refine passes_get.look fun c hc => .pure ⟨rfl, fun x hx => ?_⟩
  rw [hc.head?, hx, Option.map_some, Option.getD_some]

/-- A token is passed wherever one is left. -/
theorem passes_advance :
    Passes ts i (fun _ j => i < ts.length → j = i + 1) advance := by
  intro c _ c' hc h
  cases h
  by_cases hi : i < ts.length
  · refine ⟨i + 1, Nat.le_succ i, ?_, fun _ => rfl⟩
    have hrest : c.rest = ts[i] :: ts.drop (i + 1) := by
      rw [hc.rest_eq, List.drop_eq_getElem_cons hi]
    refine ⟨by simp only [hrest], hi, fun x _ hx => ?_⟩
    rw [Nat.add_sub_cancel, List.getElem?_eq_getElem hi] at hx
    cases hx
    simp only [hrest]
  · have hrest : c.rest = [] := by
      rw [hc.rest_eq, List.drop_eq_nil_iff]
      exact Nat.not_lt.mp hi
    refine ⟨i, le_rfl, ?_, fun h => absurd h hi⟩
    simp only [hrest]
    exact hc

/-- A token that is seen is left to pass. -/
theorem passes_peek :
    Passes ts i (fun t? j => j = i ∧ ∀ token ∈ t?, i < ts.length) peek := by
  refine passes_get.look fun c hc => .pure ⟨rfl, fun token htoken => ?_⟩
  obtain ⟨lexeme, hlexeme, -⟩ := Option.map_eq_some_iff.mp htoken
  rw [hc.head?] at hlexeme
  exact (List.getElem?_eq_some_iff.mp hlexeme).1

theorem passes_peekSecond : Passes ts i (fun _ j => j = i ∧ True) peekSecond :=
  passes_get.look fun _ _ => .pure ⟨rfl, trivial⟩

theorem passes_peekKeyword :
    Passes ts i (fun k? j => j = i ∧ ∀ keyword ∈ k?, i < ts.length) peekKeyword := by
  refine passes_peek.look fun t? ht => .pure ⟨rfl, fun keyword hk => ?_⟩
  obtain ⟨token, htoken, -⟩ := Option.bind_eq_some_iff.mp hk
  exact ht token htoken

theorem passes_eat (token : Token) :
    Passes ts i (fun eaten j => eaten = true → i < ts.length ∧ j = i + 1) (eat token) :=
  passes_peek.look fun _ ht => .ite
    (fun hnext => passes_advance.bind fun _ _ _ h =>
      .pure fun _ => ⟨ht token hnext, h (ht token hnext)⟩)
    fun _ => .pure (by simp)

theorem passes_eatKeyword (keyword : Keyword) :
    Passes ts i (fun eaten j => eaten = true → i < ts.length ∧ j = i + 1) (eatKeyword keyword) :=
  passes_peekKeyword.look fun _ hk => .ite
    (fun hnext => passes_advance.bind fun _ _ _ h =>
      .pure fun _ => ⟨hk keyword hnext, h (hk keyword hnext)⟩)
    fun _ => .pure (by simp)

/-- The span that is returned is that of the token passed. -/
theorem passes_last (hj : j = i + 1) :
    Passes ts j (fun s k => i < k ∧ Opens ts i s) (do return (← get).last) := by
  subst hj
  refine passes_get.look fun c hc => .pure ⟨Nat.lt_succ_self i, fun x hx => ?_⟩
  exact hc.last_eq x (Nat.succ_pos i) hx

theorem passes_require (token : Token) (expected : String) :
    Passes ts i (fun s j => i < j ∧ Opens ts i s) (require token expected) :=
  (passes_eat token).bind fun _ _ _ h =>
    .ite (fun heaten => passes_last (h heaten).2) fun _ => passes_fail expected

theorem passes_requireKeyword (keyword : Keyword) :
    Passes ts i (fun s j => i < j ∧ Opens ts i s) (requireKeyword keyword) :=
  (passes_eatKeyword keyword).bind fun _ _ _ h =>
    .ite (fun heaten => passes_last (h heaten).2) fun _ => passes_fail _

theorem passes_requireWord (expected : String) :
    Passes ts i (fun _ j => i < ts.length ∧ i < j) (requireWord expected) := by
  refine passes_peek.look fun t? ht => ?_
  split
  · have hi : i < ts.length := ht _ rfl
    exact passes_advance.bind fun _ k _ hk => .pure ⟨hi, by rw [hk hi]; exact Nat.lt_succ_self i⟩
  · exact passes_fail expected

/-- A phrase that is closed ends where the last token passed does. -/
theorem passes_close {l : Label} {cs : List Phrase} {start : Source.Span}
    (hstart : Opens ts i start) (hij : i < j) (hcs : Placed ts i j cs) :
    Passes ts j (fun t k => Fills ts i k t) (close l cs start) := by
  refine passes_get.look fun c hc => ?_
  have hlength := hc.le_length
  have hfirst : ts[i]? = some ts[i] := List.getElem?_eq_getElem (by omega)
  have hlast : ts[j - 1]? = some ts[j - 1] := List.getElem?_eq_getElem (by omega)
  refine .pure ⟨⟨hij, _, _, hfirst, hlast, ?_⟩, hcs⟩
  rw [← hstart _ hfirst, ← hc.last_eq _ (by omega) hlast]
  rfl

/-! ## Repetitions -/

theorem passes_repeatAtMost {R : Nat → Nat → List α → Prop} {step : Reader (Option α)}
    (hnil : ∀ i, R i i []) (hcons : ∀ i j k a as, R i j [a] → R j k as → R i k (a :: as))
    (hstep : ∀ i, Passes ts i (fun a? j => R i j a?.toList) step) (n i : Nat) :
    Passes ts i (fun as j => R i j as) (repeatAtMost step n) := by
  induction n generalizing i with
  | zero => exact .pure (hnil i)
  | succ n ih =>
      refine (hstep i).bind fun a? j _ ha => ?_
      cases a? with
      | none => exact .pure ha
      | some a => exact (ih j).bind fun as k _ has => .pure (hcons _ _ _ _ _ ha has)

/-- Phrases that are read again and again stand one behind the other. -/
theorem passes_many {step : Reader (Option Phrase)}
    (hstep : ∀ i, Passes ts i (fun t? j => Placed ts i j t?.toList) step) (i : Nat) :
    Passes ts i (fun us j => Placed ts i j us) (many step) :=
  passes_get.look fun _ _ => passes_repeatAtMost (fun _ => .nil le_rfl)
    (fun _ _ _ _ _ ht hus => ht.append le_rfl hus) hstep _ _

/-- What is read again and again only goes forward. -/
theorem passes_many_any {step : Reader (Option α)}
    (hstep : ∀ i, Passes ts i (fun _ _ => True) step) (i : Nat) :
    Passes ts i (fun _ _ => True) (many step) :=
  passes_get.look fun _ _ => passes_repeatAtMost (R := fun _ _ _ => True)
    (fun _ => trivial) (fun _ _ _ _ _ _ _ => trivial) hstep _ _

/-! ## Phrases -/

/-- From behind `j` tokens on, the reader ends a phrase that began behind `i` of them. -/
def Completes (ts : List Lexeme) (i j : Nat) (r : Reader Phrase) : Prop :=
  Passes ts j (fun t k => Placed ts i k [t]) r

/-- The phrase may have begun earlier. -/
theorem Completes.extend {r : Reader Phrase} {i' : Nat} (h : Completes ts i j r) (hi : i' ≤ i) :
    Completes ts i' j r :=
  h.mono fun _ _ _ ht => Placed.mono ht hi le_rfl

/-- What has been read since the phrase began becomes its children. -/
theorem completes_close {l : Label} {cs : List Phrase} {start : Source.Span}
    (hstart : Opens ts i start) (hij : i ≤ j) (hjk : j < k) (hcs : Placed ts j k cs) :
    Completes ts i k (close l cs start) :=
  (passes_close hstart (hij.trans_lt hjk) (hcs.mono hij le_rfl)).mono fun _ _ _ ht => ht.placed

/-- A phrase that ends with a token of its own. -/
theorem completes_closed {l : Label} {cs : List Phrase} {start : Source.Span} {token : Token}
    {expected : String} (hstart : Opens ts i start) (hij : i ≤ j) (hjk : j < k)
    (hcs : Placed ts j k cs) :
    Completes ts i k (require token expected >>= fun _ => close l cs start) :=
  (passes_require token expected).bind fun _ _ hkm _ =>
    completes_close hstart hij (hjk.trans_le hkm) (hcs.mono le_rfl hkm)

theorem completes_collapse {l : Label} {us : List Phrase} {start : Source.Span}
    (hstart : Opens ts i start) (hij : i < j) (hus : Placed ts i j us) :
    Completes ts i j (collapse l us start) := by
  unfold collapse
  split
  · exact .pure hus
  · exact completes_close hstart le_rfl hij hus

/-- Some phrases, at least one. -/
theorem passes_separated {more : Reader Bool} {item : Reader Phrase}
    (hmore : ∀ i, Passes ts i (fun _ _ => True) more) (hitem : ∀ i, Completes ts i i item)
    (i : Nat) : Passes ts i (fun us j => i < j ∧ Placed ts i j us) (separated more item) := by
  refine (hitem i).bind fun first j _ hfirst => ?_
  refine Passes.bind (passes_many (fun i => ?_) j) fun others k hjk hothers =>
    .pure ⟨hfirst.lt.trans_le hjk, hfirst.append le_rfl hothers⟩
  refine (hmore i).bind fun b j hij _ => .ite (fun _ => ?_) fun _ => .pure (.nil hij)
  exact (hitem j).bind fun t k _ ht => .pure (ht.mono hij le_rfl)

theorem passes_commaSeparated {item : Reader Phrase} (hitem : ∀ i, Completes ts i i item)
    (i : Nat) : Passes ts i (fun us j => i < j ∧ Placed ts i j us) (commaSeparated item) :=
  passes_separated (fun _ => (passes_eat .comma).mono fun _ _ _ _ => trivial) hitem i

end Query.Reader

end RowGuard
