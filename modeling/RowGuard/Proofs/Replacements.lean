import Mathlib.Data.List.Nodup
import RowGuard.Proofs.Statements

/-!
# Corresponding replacements

The objects that an alias stands for are found through an expression that the
condition of the subselect names.  Corresponding conditions name corresponding
expressions, of which the same is preferred, and the aliases can be bound in
the same order.
-/

namespace RowGuard

open Query (AliasDefinition Label Phrase Statement)
open Query.Phrase

/-! ## Paired names -/

/-- A relation between names that pairs each name at most once. -/
def PairsOnce (R : String → String → Prop) : Prop :=
  ∀ a b c d, R a b → R c d → (a = c ↔ b = d)

theorem contains_paired {R : String → String → Prop} (hR : PairsOnce R)
    {as bs : List String} (h : List.Forall₂ R as bs) {a b : String} (hab : R a b) :
    as.contains a = bs.contains b := by
  induction h with
  | nil => rfl
  | @cons c d as bs hcd _ ih =>
      have hiff := hR a b c d hab hcd
      rw [List.contains_cons, List.contains_cons, ih]
      by_cases hac : a = c
      · simp [hac, hiff.mp hac]
      · have hbd : b ≠ d := fun h => hac (hiff.mpr h)
        rw [beq_false_of_ne hac, beq_false_of_ne hbd]

theorem filter_ne_paired {R : String → String → Prop} (hR : PairsOnce R)
    {as bs : List String} (h : List.Forall₂ R as bs) {a b : String} (hab : R a b) :
    List.Forall₂ R (as.filter fun c => !c == a) (bs.filter fun d => !d == b) := by
  induction h with
  | nil => exact .nil
  | @cons c d as bs hcd _ ih =>
      have hiff := hR c d a b hcd hab
      by_cases hca : c = a
      · simpa [hca, hiff.mp hca] using ih
      · have hdb : d ≠ b := fun h => hca (hiff.mpr h)
        simpa [hca, hdb] using ⟨hcd, ih⟩

theorem eraseDups_paired {R : String → String → Prop} (hR : PairsOnce R)
    (as bs : List String) (h : List.Forall₂ R as bs) :
    List.Forall₂ R as.eraseDups bs.eraseDups := by
  cases h with
  | nil => exact .nil
  | @cons a b as bs hab h =>
      rw [List.eraseDups_cons, List.eraseDups_cons]
      exact .cons hab (eraseDups_paired hR _ _ (filter_ne_paired hR h hab))
termination_by as.length
decreasing_by
  simpa using Nat.lt_succ_of_le (List.length_filter_le _ _)

theorem all_contains_paired {R : String → String → Prop} (hR : PairsOnce R)
    {as bs bound bound' : List String} (h : List.Forall₂ R as bs)
    (hbound : List.Forall₂ R bound bound') :
    as.all bound.contains = bs.all bound'.contains := by
  induction h with
  | nil => rfl
  | cons hab _ ih => rw [List.all_cons, List.all_cons, ih, contains_paired hR hbound hab]

namespace Definitions

/-- The aliases of one declaration. -/
def Partners (qs : Definitions) (a b : String) : Prop := (a, b) ∈ qs.pairs

def aliases (qs : Definitions) : List String := qs.left.map AliasDefinition.name

def aliases' (qs : Definitions) : List String := qs.right.map AliasDefinition.name

variable {qs : Definitions}

theorem mem_pairs_iff {a b : String} :
    (a, b) ∈ qs.pairs ↔ ∃ q ∈ qs, q.1.name = a ∧ q.2.name = b := by
  simp [pairs]

theorem partners_of_mem {q : AliasDefinition × AliasDefinition} (h : q ∈ qs) :
    qs.Partners q.1.name q.2.name :=
  mem_pairs h

theorem pairsOnce (hnodup : qs.aliases.Nodup) (hnodup' : qs.aliases'.Nodup) :
    PairsOnce qs.Partners := by
  intro a b c d hab hcd
  obtain ⟨q, hq, rfl, rfl⟩ := mem_pairs_iff.mp hab
  obtain ⟨o, ho, rfl, rfl⟩ := mem_pairs_iff.mp hcd
  have heq : q.1.name = o.1.name → q = o := by
    refine List.inj_on_of_nodup_map (f := fun q => q.1.name) ?_ hq ho
    simpa [aliases, left, Function.comp_def] using hnodup
  have heq' : q.2.name = o.2.name → q = o := by
    refine List.inj_on_of_nodup_map (f := fun q => q.2.name) ?_ hq ho
    simpa [aliases', right, Function.comp_def] using hnodup'
  exact ⟨fun h => by rw [heq h], fun h => by rw [heq' h]⟩

end Definitions

/-! ## Mentioned aliases -/

/-- Every name refers either to a declared partner or to what no declared alias is. -/
def Decides (k : Link) (ρ : Pairs) (qs : Definitions) : Prop :=
  ∀ n x ws, Refers k ρ n x ws →
    (qs.Partners n x ∧ ws = []) ∨ (n ∉ qs.aliases ∧ x ∉ qs.aliases')

theorem decides_append (k : Link) (ρ : Pairs) (qs : Definitions) :
    Decides k (qs.pairs ++ ρ) qs := by
  intro n x ws href
  rcases href.append_cases with hmem | ⟨hfresh, -⟩
  · exact Or.inl hmem
  · refine Or.inr ⟨fun hn => ?_, fun hx => ?_⟩
    · obtain ⟨d, hd, rfl⟩ := List.mem_map.mp hn
      obtain ⟨q, hq, rfl⟩ := List.mem_map.mp hd
      exact (hfresh _ (Definitions.mem_pairs hq)).1 rfl
    · obtain ⟨d, hd, rfl⟩ := List.mem_map.mp hx
      obtain ⟨q, hq, rfl⟩ := List.mem_map.mp hd
      exact (hfresh _ (Definitions.mem_pairs hq)).2 rfl

namespace Enumeration

/-- The aliases among some that a phrase mentions outside of subselects. -/
def mentioned (aliases : List String) (t : Phrase) : List String :=
  ((t.visit fun n => n.label != .subselect).filterMap identifier?).filter aliases.contains

def mentionedAll (aliases : List String) (ts : List Phrase) : List String :=
  ((visitAll (fun n => n.label != .subselect) ts).filterMap identifier?).filter
    aliases.contains

theorem named_eq_eraseDups (aliases : List String) (t : Phrase) :
    named aliases t = (mentioned aliases t).eraseDups := rfl

theorem mentionedAll_cons (aliases : List String) (t : Phrase) (ts : List Phrase) :
    mentionedAll aliases (t :: ts) = mentioned aliases t ++ mentionedAll aliases ts := by
  simp [mentionedAll, mentioned, visitAll]

theorem identifier?_of_not_name {l : Label} (hname : ∀ x, l ≠ .identifier x)
    (ts : List Phrase) (s : Source.Span) : (Phrase.node l ts s).identifier? = none := by
  cases l <;> first | rfl | exact absurd rfl (hname _)

/-- A node that is no name mentions what its children mention. -/
theorem mentioned_node (aliases : List String) {l : Label} (hname : ∀ x, l ≠ .identifier x)
    (hsub : l ≠ .subselect) (ts : List Phrase) (s : Source.Span) :
    mentioned aliases (.node l ts s) = mentionedAll aliases ts := by
  simp [mentioned, mentionedAll, visit, identifier?_of_not_name hname, Phrase.label, hsub]

theorem mentioned_subselect (aliases : List String) (ts : List Phrase) (s : Source.Span) :
    mentioned aliases (.node .subselect ts s) = [] := by
  simp [mentioned, visit, identifier?, Phrase.label]

theorem mentionedAll_segments (aliases : List String) {segments : List Phrase}
    {ws : List String} (h : AreSegments segments ws) : mentionedAll aliases segments = [] := by
  induction h with
  | nil => rfl
  | cons span hword _ ih =>
      rw [mentionedAll_cons, ih, mentioned_node aliases (by simp) (by simp)]
      exact List.append_nil _

theorem mentioned_name (aliases : List String) (x : String) (s : Source.Span) :
    mentioned aliases (.node (.identifier x) [] s) = [x].filter aliases.contains := by
  simp [mentioned, visit, visitAll, identifier?, Phrase.label]

theorem mentioned_reference (aliases : List String) {t : Phrase} {x : String}
    {ws : List String} (h : t.IsReference x ws) :
    mentioned aliases t = [x].filter aliases.contains := by
  cases h with
  | name => exact mentioned_name aliases x _
  | path _ _ _ hsegments =>
      rw [mentioned_node aliases (by simp) (by simp), mentionedAll_cons,
        mentionedAll_segments aliases hsegments, List.append_nil, mentioned_name]

theorem mentioned_leaf (aliases : List String) {l : Label} (hleaf : l.isLeaf)
    (s : Source.Span) : mentioned aliases (.node l [] s) = [] := by
  rw [mentioned_node aliases (by rintro x rfl; cases hleaf) (by rintro rfl; cases hleaf)]
  rfl

theorem mentionedAll_names (aliases names : List String) :
    mentionedAll aliases (names.map namedParameter) = [] := by
  induction names with
  | nil => rfl
  | cons name names ih =>
      rw [List.map_cons, mentionedAll_cons, ih]
      exact congrArg (· ++ []) (mentioned_leaf aliases rfl _)

end Enumeration

open Enumeration

mutual

/-- Corresponding phrases mention partners in the same order. -/
theorem Corresponds.mentioned {k : Link} {i j : Nat} {ρ : Pairs} {qs : Definitions}
    {t u : Phrase} (hqs : Decides k ρ qs) : Corresponds k i j ρ t u →
    List.Forall₂ qs.Partners (mentioned qs.aliases t) (mentioned qs.aliases' u)
  | .reference (n := n) (x := x) ht hu href => by
      rw [mentioned_reference _ ht, mentioned_reference _ hu]
      rcases hqs n x _ href with ⟨hpartners, -⟩ | ⟨hn, hx⟩
      · obtain ⟨q, hq, rfl, rfl⟩ := Definitions.mem_pairs_iff.mp hpartners
        have hmem : q.1.name ∈ qs.aliases := List.mem_map_of_mem (List.mem_map_of_mem hq)
        have hmem' : q.2.name ∈ qs.aliases' := List.mem_map_of_mem (List.mem_map_of_mem hq)
        simpa [hmem, hmem'] using hpartners
      · simp [hn, hx]
  | .leaf s s' hl hm _ => by
      rw [mentioned_leaf _ hl, mentioned_leaf _ hm]
      exact .nil
  | .roles s s' r h _ _ => by
      rw [mentioned_node _ (by simp) (by simp), mentioned_node _ (by simp) (by simp),
        mentionedAll_cons, mentionedAll_cons, mentioned_leaf _ rfl, mentionedAll_cons,
        mentionedAll_names]
      exact List.rel_append (h.mentioned hqs) .nil
  | .subselect _ _ _ _ _ _ _ _ _ _ _ _ _ => by
      rw [mentioned_subselect, mentioned_subselect]
      exact .nil
  | .compound (l := l) s s' hcompound h => by
      have hname : ∀ x, l ≠ .identifier x := by rintro x rfl; cases hcompound
      have hsub : l ≠ .subselect := by rintro rfl; cases hcompound
      rw [mentioned_node _ hname hsub, mentioned_node _ hname hsub]
      exact h.mentionedAll hqs

theorem AllCorrespond.mentionedAll {k : Link} {i j : Nat} {ρ : Pairs} {qs : Definitions}
    {ts us : List Phrase} (hqs : Decides k ρ qs) : AllCorrespond k i j ρ ts us →
    List.Forall₂ qs.Partners (mentionedAll qs.aliases ts) (mentionedAll qs.aliases' us)
  | .nil => .nil
  | .cons h hs => by
      rw [mentionedAll_cons, mentionedAll_cons]
      exact List.rel_append (h.mentioned hqs) (hs.mentionedAll hqs)

end

section Conditions

variable {k : Link} {i j : Nat} {ρ : Pairs} {qs : Definitions} {t u : Phrase}

theorem Corresponds.named (hqs : Decides k ρ qs) (honce : PairsOnce qs.Partners)
    (h : Corresponds k i j ρ t u) :
    List.Forall₂ qs.Partners (named qs.aliases t) (named qs.aliases' u) := by
  rw [named_eq_eraseDups, named_eq_eraseDups]
  exact eraseDups_paired honce _ _ (h.mentioned hqs)

/-! ## Equated expressions -/

/-- A declared alias stands on one side exactly where its partner stands on the other. -/
theorem Corresponds.identifier?_iff (hqs : Decides k ρ qs) (honce : PairsOnce qs.Partners)
    {a b : String} (hab : qs.Partners a b) (h : Corresponds k i j ρ t u) :
    t.identifier? = some a ↔ u.identifier? = some b := by
  have hmem : a ∈ qs.aliases ∧ b ∈ qs.aliases' := by
    obtain ⟨q, hq, rfl, rfl⟩ := Definitions.mem_pairs_iff.mp hab
    exact ⟨List.mem_map_of_mem (List.mem_map_of_mem hq),
      List.mem_map_of_mem (List.mem_map_of_mem hq)⟩
  have hlabels : ∀ (l m : Label) (cs ds : List Phrase) (s s' : Source.Span),
      (∀ x, l ≠ .identifier x) → (∀ x, m ≠ .identifier x) →
      ((Phrase.node l cs s).identifier? = some a ↔ (Phrase.node m ds s').identifier? = some b) := by
    intro l m cs ds s s' hl hm
    rw [identifier?_of_not_name hl, identifier?_of_not_name hm]
    simp
  cases h with
  | @reference _ _ _ _ _ n x ws vs ht hu href =>
      rw [ht.identifier?_eq, hu.identifier?_eq]
      rcases hqs n x vs href with ⟨hnx, rfl⟩ | ⟨hn, hx⟩
      · have hiff := honce n x a b hnx hab
        by_cases hws : ws = []
        · simpa [hws] using hiff
        · simp [hws]
      · have hna : n ≠ a := fun heq => hn (heq ▸ hmem.1)
        have hxb : x ≠ b := fun heq => hx (heq ▸ hmem.2)
        by_cases hws : ws = [] <;> by_cases hvs : vs ++ ws = [] <;> simp [hws, hvs, hna, hxb]
  | leaf s s' hl hm _ =>
      refine hlabels _ _ _ _ _ _ ?_ ?_
      · rintro x rfl; cases hl
      · rintro x rfl; cases hm
  | roles => exact hlabels _ _ _ _ _ _ (by simp) (by simp)
  | subselect => exact hlabels _ _ _ _ _ _ (by simp) (by simp)
  | compound s s' hcompound _ =>
      refine hlabels _ _ _ _ _ _ ?_ ?_ <;> · rintro x rfl; cases hcompound

theorem equated?_of_not_equal {l : Label} (name : String) (aliases : List String)
    (hl : l ≠ .compare .equal) (ts : List Phrase) (s : Source.Span) :
    equated? name aliases (.node l ts s) = none := by
  unfold equated?
  split
  · rename_i heq
    cases heq
    exact absurd rfl hl
  · rfl

/-- Corresponding conditions equate partners with corresponding expressions. -/
theorem Corresponds.equated? (hqs : Decides k ρ qs) (honce : PairsOnce qs.Partners)
    {a b : String} (hab : qs.Partners a b) (h : Corresponds k i j ρ t u) :
    Option.Rel (Corresponds k i j ρ) (equated? a qs.aliases t) (equated? b qs.aliases' u) := by
  have hnone : ∀ (l m : Label) (cs ds : List Phrase) (s s' : Source.Span),
      l ≠ .compare .equal → m ≠ .compare .equal →
      Option.Rel (Corresponds k i j ρ) (Enumeration.equated? a qs.aliases (.node l cs s))
        (Enumeration.equated? b qs.aliases' (.node m ds s')) := by
    intro l m cs ds s s' hl hm
    rw [equated?_of_not_equal _ _ hl, equated?_of_not_equal _ _ hm]
    exact .none
  cases h with
  | reference ht hu _ =>
      obtain ⟨l, cs, s⟩ := t
      obtain ⟨m, ds, s'⟩ := u
      refine hnone l m cs ds s s' ?_ ?_
      · rcases ht.label_cases with h | h <;> · rintro rfl; cases h
      · rcases hu.label_cases with h | h <;> · rintro rfl; cases h
  | leaf s s' hl hm _ =>
      refine hnone _ _ _ _ _ _ ?_ ?_
      · rintro rfl; cases hl
      · rintro rfl; cases hm
  | roles => exact hnone _ _ _ _ _ _ (by simp) (by simp)
  | subselect => exact hnone _ _ _ _ _ _ (by simp) (by simp)
  | @compound _ _ _ l ts us s s' _ hall =>
      by_cases hl : l = .compare .equal
      · subst hl
        cases hall with
        | nil => exact .none
        | @cons _ _ _ left left' ts us hleft hrest =>
            cases hrest with
            | nil => exact .none
            | @cons _ _ _ right right' ts us hright hrest =>
                cases hrest with
                | cons => exact .none
                | nil =>
                    have hfilter : ∀ {e e' : Phrase}, Corresponds k i j ρ e e' →
                        Option.Rel (Corresponds k i j ρ)
                          ((some e).filter fun o => !(Enumeration.named qs.aliases o).contains a)
                          ((some e').filter fun o =>
                            !(Enumeration.named qs.aliases' o).contains b) := by
                      intro e e' he
                      have hcontains := contains_paired honce (he.named hqs honce) hab
                      by_cases hmem : (Enumeration.named qs.aliases e).contains a
                      · simp only [Option.filter_some, ← hcontains, hmem]
                        exact .none
                      · simp only [Option.filter_some, ← hcontains, hmem]
                        exact .some he
                    have hiff := hleft.identifier?_iff hqs honce hab
                    have hiff' := hright.identifier?_iff hqs honce hab
                    simp only [Enumeration.equated?]
                    by_cases hfirst : left.identifier? = some a
                    · rw [if_pos hfirst, if_pos (hiff.mp hfirst)]
                      exact hfilter hright
                    · rw [if_neg hfirst, if_neg fun h => hfirst (hiff.mpr h)]
                      by_cases hsecond : right.identifier? = some a
                      · rw [if_pos hsecond, if_pos (hiff'.mp hsecond)]
                        exact hfilter hleft
                      · rw [if_neg hsecond, if_neg fun h => hsecond (hiff'.mpr h)]
                        exact .none
      · exact hnone _ _ _ _ _ _ hl hl

end Conditions

theorem conjuncts_of_other {l : Label} (hand : l ≠ .and) (hbrackets : l ≠ .brackets)
    (ts : List Phrase) (s : Source.Span) :
    conjuncts (.node l ts s) = [.node l ts s] := by
  unfold conjuncts
  split
  · rename_i heq
    cases heq
    exact absurd rfl hand
  · rename_i heq
    cases heq
    exact absurd rfl hbrackets
  · rfl

mutual

/-- The conjuncts of corresponding conditions correspond one by one. -/
theorem Corresponds.conjuncts {k : Link} {i j : Nat} {ρ : Pairs} {t u : Phrase} :
    (h : Corresponds k i j ρ t u) →
      List.Forall₂ (Corresponds k i j ρ) (conjuncts t) (conjuncts u)
  | .reference ht hu href => by
      have hself : ∀ {t : Phrase} {x : String} {ws : List String}, t.IsReference x ws →
          Enumeration.conjuncts t = [t] := by
        intro t x ws ht
        cases ht <;> exact conjuncts_of_other (by simp) (by simp) _ _
      rw [hself ht, hself hu]
      exact .cons (.reference ht hu href) .nil
  | .leaf s s' hl hm hleaf => by
      rw [conjuncts_of_other (by rintro rfl; cases hl) (by rintro rfl; cases hl),
        conjuncts_of_other (by rintro rfl; cases hm) (by rintro rfl; cases hm)]
      exact .cons (.leaf s s' hl hm hleaf) .nil
  | .roles s s' r h hroles hne => by
      rw [conjuncts_of_other (by simp) (by simp), conjuncts_of_other (by simp) (by simp)]
      exact .cons (.roles s s' r h hroles hne) .nil
  | .subselect distinct s₁ s₂ s₃ s₁' s₂' s₃' hranges hjoins hselect hrest hfinal hexact => by
      rw [conjuncts_of_other (by simp) (by simp), conjuncts_of_other (by simp) (by simp)]
      exact .cons (.subselect distinct s₁ s₂ s₃ s₁' s₂' s₃' hranges hjoins hselect hrest hfinal
        hexact) .nil
  | .compound (l := l) s s' hcompound h => by
      by_cases hand : l = .and
      · subst hand
        exact h.conjunctsAll
      by_cases hbrackets : l = .brackets
      · subst hbrackets
        have hall := h.conjunctsAll
        cases h with
        | nil => exact .cons (.compound s s' hcompound .nil) .nil
        | cons hfirst hrest =>
            cases hrest with
            | nil => simpa [Enumeration.conjunctsAll, Enumeration.conjuncts] using hall
            | cons hsecond hrest =>
                exact .cons (.compound s s' hcompound (.cons hfirst (.cons hsecond hrest))) .nil
      rw [conjuncts_of_other hand hbrackets, conjuncts_of_other hand hbrackets]
      exact .cons (.compound s s' hcompound h) .nil

theorem AllCorrespond.conjunctsAll {k : Link} {i j : Nat} {ρ : Pairs} {ts us : List Phrase} :
    AllCorrespond k i j ρ ts us →
      List.Forall₂ (Corresponds k i j ρ) (conjunctsAll ts) (conjunctsAll us)
  | .nil => .nil
  | .cons h hs => List.rel_append h.conjuncts hs.conjunctsAll

end

/-! ## Replacements -/

theorem firstLeast_rel {α β : Type} {R : α → β → Prop} {f : α → Nat} {g : β → Nat}
    {as : List α} {bs : List β} (h : List.Forall₂ R as bs) (hmeasure : ∀ a b, R a b → f a = g b) :
    Option.Rel R (firstLeast f as) (firstLeast g bs) := by
  induction h with
  | nil => exact .none
  | @cons a b as bs hab _ ih =>
      simp only [firstLeast]
      revert ih
      generalize firstLeast f as = x
      generalize firstLeast g bs = y
      rintro (hcd | _)
      · rename_i c d
        simp only [hmeasure a b hab, hmeasure c d hcd]
        split
        · exact .some hcd
        · exact .some hab
      · exact .some hab

section Replacing

variable {lenient : Prop} {m : Mapping} {k : Link} {i j : Nat} {ρ : Pairs} {qs : Definitions}
variable {scope scope' : List AliasDefinition}

/-- Replacements of partners by corresponding expressions. -/
structure ReplacementsAgree (k : Link) (i j : Nat) (ρ : Pairs) (qs : Definitions)
    (r r' : Replacement) : Prop where
  mem : (r.definition, r'.definition) ∈ qs
  expression : Corresponds k i j (qs.pairs ++ ρ) r.expression r'.expression
  depends : List.Forall₂ qs.Partners r.dependsOn r'.dependsOn
  path : ∀ p, r.definition.joinPath? = some p → r.expression = ofDotted p
  path' : ∀ p, r'.definition.joinPath? = some p → r'.expression = ofDotted p

theorem Declared.pairsOnce (h : Declared lenient m k ρ qs.pairs scope scope' qs) :
    PairsOnce qs.Partners :=
  Definitions.pairsOnce h.nodup h.nodup'

theorem replacement_agree {conditions conditions' : List Phrase}
    (hdeclared : Declared lenient m k ρ qs.pairs scope scope' qs)
    (hconditions : List.Forall₂ (Corresponds k i j (qs.pairs ++ ρ)) conditions conditions')
    {q : AliasDefinition × AliasDefinition} (hq : q ∈ qs) :
    Outcome.Agree lenient Fault.isUndecidable (ReplacementsAgree k i j ρ qs)
      (replacement qs.aliases conditions q.1) (replacement qs.aliases' conditions' q.2) := by
  have honce := hdeclared.pairsOnce
  have hdecides := decides_append k ρ qs
  have hagree := hdeclared.agree q hq
  cases hagree with
  | range a b type =>
      have hexpressions : List.Forall₂ (Corresponds k i j (qs.pairs ++ ρ))
          (conditions.filterMap (equated? a qs.aliases))
          (conditions'.filterMap (equated? b qs.aliases')) :=
        List.rel_filterMap (fun _ _ h =>
          h.equated? hdecides honce (Definitions.partners_of_mem hq)) hconditions
      have hleast := firstLeast_rel hexpressions (f := fun e => (named qs.aliases e).length)
        (g := fun e => (named qs.aliases' e).length)
        fun e e' he => (he.named hdecides honce).length_eq
      simp only [replacement, expressionFor?, AliasDefinition.range]
      revert hleast
      generalize firstLeast _ _ = x
      generalize firstLeast _ _ = y
      rintro (he | _)
      · exact ⟨hq, he, he.named hdecides honce, by simp, by simp⟩
      · exact Or.inr rfl
  | @join d d' n x ws vs h =>
      have he : Corresponds k i j (qs.pairs ++ ρ)
          (ofDotted (Text.Dotted.join (n :: ws))) (ofDotted (Text.Dotted.join (x :: (vs ++ ws)))) :=
        .reference (isReference_ofDotted h.words) (isReference_ofDotted h.words') h.refers
      simp only [replacement, expressionFor?, h.path, h.path']
      refine ⟨hq, he, he.named hdecides honce, ?_, ?_⟩
      · simp [h.path]
      · simp [h.path']

theorem replacements_agree {s s' : Statement}
    (h : StatementsAgree lenient m k i j ρ scope scope' qs s s') :
    Outcome.Agree lenient Fault.isUndecidable (List.Forall₂ (ReplacementsAgree k i j ρ qs))
      (replacements s) (replacements s') := by
  have hconditions : List.Forall₂ (Corresponds k i j (qs.pairs ++ ρ))
      ((s.condition?.map conjuncts).getD []) ((s'.condition?.map conjuncts).getD []) := by
    have hcondition := h.condition
    revert hcondition
    generalize s.condition? = x
    generalize s'.condition? = y
    rintro (hc | _)
    · exact hc.conjuncts
    · exact .nil
  have hall : ∀ os : Definitions, (∀ o ∈ os, o ∈ qs) →
      Outcome.Agree lenient Fault.isUndecidable (List.Forall₂ (ReplacementsAgree k i j ρ qs))
        (os.left.mapM (replacement qs.aliases ((s.condition?.map conjuncts).getD [])))
        (os.right.mapM (replacement qs.aliases' ((s'.condition?.map conjuncts).getD []))) := by
    intro os hos
    induction os with
    | nil => exact .nil
    | cons o os ih =>
        simp only [Definitions.left, Definitions.right, List.map_cons, List.mapM_cons]
        refine Outcome.Agree.bind
          (replacement_agree h.declared hconditions (hos o (by simp))) fun r r' _ _ hr => ?_
        refine Outcome.Agree.bind (ih fun p hp => hos p (List.mem_cons_of_mem o hp))
          fun rs rs' _ _ hrs => ?_
        exact .cons hr hrs
  have haliases : s.aliases = qs.aliases := by simp [Statement.aliases, h.left, Definitions.aliases]
  have haliases' : s'.aliases = qs.aliases' := by
    simp [Statement.aliases, h.right, Definitions.aliases']
  unfold replacements
  rw [h.left, h.right, haliases, haliases']
  exact hall qs fun _ h => h

/-! ## The order of binding -/

theorem arrange_of_none {bound : List String} {rs : List Replacement}
    (hnone : rs.findIdx? (Replacement.isReady bound) = none) : arrange bound rs = ([], rs) := by
  rw [arrange]
  split
  · rfl
  · rename_i n hsome
    rw [hnone] at hsome
    cases hsome

theorem arrange_of_some {bound : List String} {rs : List Replacement} {n : Nat}
    {r : Replacement} (hsome : rs.findIdx? (Replacement.isReady bound) = some n)
    (hr : rs[n]? = some r) :
    arrange bound rs =
      (r :: (arrange (r.definition.name :: bound) (rs.eraseIdx n)).1,
        (arrange (r.definition.name :: bound) (rs.eraseIdx n)).2) := by
  rw [arrange]
  split
  · rename_i hnone
    rw [hsome] at hnone
    cases hnone
  · rename_i n' hsome'
    rw [hsome] at hsome'
    cases hsome'
    rw [hr]

theorem findIdx?_rel {α β : Type} {R : α → β → Prop} {p : α → Bool} {q : β → Bool}
    {as : List α} {bs : List β} (h : List.Forall₂ R as bs) (hpq : ∀ a b, R a b → p a = q b) :
    as.findIdx? p = bs.findIdx? q := by
  induction h with
  | nil => rfl
  | cons hab _ ih => rw [List.findIdx?_cons, List.findIdx?_cons, hpq _ _ hab, ih]

theorem eraseIdx_rel {α β : Type} {R : α → β → Prop} {as : List α} {bs : List β}
    (h : List.Forall₂ R as bs) (n : Nat) : List.Forall₂ R (as.eraseIdx n) (bs.eraseIdx n) := by
  induction h generalizing n with
  | nil => exact .nil
  | cons hab hrest ih =>
      cases n with
      | zero => exact hrest
      | succ n => exact .cons hab (ih n)

theorem getElem?_rel {α β : Type} {R : α → β → Prop} {as : List α} {bs : List β}
    (h : List.Forall₂ R as bs) (n : Nat) : Option.Rel R as[n]? bs[n]? := by
  induction h generalizing n with
  | nil => exact .none
  | cons hab _ ih =>
      cases n with
      | zero => exact .some hab
      | succ n => exact ih n

/-- Partners are bound in the same order, and the same ones stay behind. -/
theorem arrange_agree (hdeclared : Declared lenient m k ρ qs.pairs scope scope' qs)
    {rs rs' : List Replacement} {bound bound' : List String}
    (h : List.Forall₂ (ReplacementsAgree k i j ρ qs) rs rs')
    (hbound : List.Forall₂ qs.Partners bound bound') :
    List.Forall₂ (ReplacementsAgree k i j ρ qs) (arrange bound rs).1 (arrange bound' rs').1 ∧
      List.Forall₂ (ReplacementsAgree k i j ρ qs) (arrange bound rs).2
        (arrange bound' rs').2 := by
  induction hlength : rs.length generalizing rs rs' bound bound' with
  | zero =>
      cases List.length_eq_zero_iff.mp hlength
      cases h
      rw [arrange_of_none rfl, arrange_of_none rfl]
      exact ⟨.nil, .nil⟩
  | succ length ih =>
      have hidx : rs.findIdx? (Replacement.isReady bound) =
          rs'.findIdx? (Replacement.isReady bound') :=
        findIdx?_rel h fun r r' hr => all_contains_paired hdeclared.pairsOnce hr.depends hbound
      cases hfind : rs.findIdx? (Replacement.isReady bound) with
      | none =>
          rw [arrange_of_none hfind, arrange_of_none (hidx ▸ hfind)]
          exact ⟨.nil, h⟩
      | some n =>
          have hn : n < rs.length := (List.findIdx?_eq_some_iff_findIdx_eq.mp hfind).1
          have hrel := getElem?_rel h n
          rw [List.getElem?_eq_getElem hn] at hrel
          cases hr' : rs'[n]? with
          | none =>
              rw [hr'] at hrel
              cases hrel
          | some r' =>
              rw [hr'] at hrel
              cases hrel with
              | some hr =>
                  rw [arrange_of_some hfind (List.getElem?_eq_getElem hn),
                    arrange_of_some (hidx ▸ hfind) hr']
                  have hrest := ih (eraseIdx_rel h n)
                    (.cons (Definitions.partners_of_mem hr.mem) hbound)
                    (by rw [List.length_eraseIdx_of_lt hn, hlength]; rfl)
                  exact ⟨.cons hr hrest.1, hrest.2⟩

end Replacing

end RowGuard
