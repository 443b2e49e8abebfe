import RowGuard.Proofs.FreshNames
import RowGuard.Proofs.Substitutions

/-!
# Aliases kept apart

Whatever names are taken, no subselect declares one of them once the aliases are
kept apart.  Where no alias is taken and none is declared twice there is nothing
to rename, and the phrase stays as it is.
-/

namespace RowGuard

open Query (Label Phrase)
open Query.Phrase
open Restriction

/-! ## Claims -/

section Claims

variable {rename : String → String} {taken : List String}

/-- Names that are taken stay taken. -/
theorem mem_foldl_claim (ds : List String) (r : Renaming) {name : String} (h : name ∈ r.2) :
    name ∈ (ds.foldl claim r).2 := by
  induction ds generalizing r with
  | nil => exact h
  | cons d ds ih =>
      apply ih
      unfold claim
      split <;> exact List.mem_cons_of_mem _ h

/-- A claimed alias ends up under a name that was not taken before.  What has not been
claimed yet still goes by the renaming from outside. -/
theorem not_mem_foldl_claim {done ds : List String} {r : Renaming} (htaken : taken ⊆ r.2)
    (hdone : ∀ name, rename name ∈ done → r.1 name ∉ taken)
    (hopen : ∀ name, rename name ∉ done → r.1 name = rename name) {name : String}
    (hname : rename name ∈ done ++ ds) : (ds.foldl claim r).1 name ∉ taken := by
  induction ds generalizing done r with
  | nil => exact hdone name (by simpa using hname)
  | cons d ds ih =>
      rw [List.foldl_cons]
      have hnext : rename name ∈ (done ++ [d]) ++ ds := by simpa using hname
      by_cases hd : d ∈ r.2
      · have hfresh := Text.Fresh.indexed_not_mem d r.2
        have hclaim : claim r d = (thenRename r.1 d (Text.Fresh.indexed d r.2),
            Text.Fresh.indexed d r.2 :: r.2) := by simp [claim, hd]
        rw [hclaim]
        refine ih (fun n hn => List.mem_cons_of_mem _ (htaken hn)) (fun n hn => ?_)
          (fun n hn => ?_) hnext
        · simp only [thenRename]
          split
          · exact fun hmem => hfresh (htaken hmem)
          · rename_i hne
            refine hdone n ?_
            rcases List.mem_append.mp hn with hn | hn
            · exact hn
            · by_contra hout
              exact hne ((hopen n hout).trans (List.mem_singleton.mp hn))
        · rw [List.mem_append, List.mem_singleton, not_or] at hn
          have hsame := hopen n hn.1
          simp only [thenRename, hsame, hn.2, if_false]
      · have hclaim : claim r d = (r.1, d :: r.2) := by simp [claim, hd]
        rw [hclaim]
        refine ih (fun n hn => List.mem_cons_of_mem _ (htaken hn)) (fun n hn => ?_)
          (fun n hn => ?_) hnext
        · by_cases hbefore : rename n ∈ done
          · exact hdone n hbefore
          · rw [List.mem_append, List.mem_singleton] at hn
            rw [hopen n hbefore, hn.resolve_left hbefore]
            exact fun hmem => hd (htaken hmem)
        · rw [List.mem_append, not_or] at hn
          exact hopen n hn.1

theorem claimed_not_mem (names : List String) {name : String} (hname : name ∈ names) :
    ((names.map rename).foldl claim (rename, taken)).1 name ∉ taken :=
  @not_mem_foldl_claim rename taken [] _ _ (fun _ h => h) (by simp) (fun _ _ => rfl) name
    (List.mem_map_of_mem hname)

/-- Aliases that are not taken, each declared once, are claimed under their own names. -/
theorem foldl_claim_of_not_mem {ds : List String} (hnodup : ds.Nodup)
    (hfree : ∀ d ∈ ds, d ∉ taken) :
    ds.foldl claim (rename, taken) = (rename, ds.reverse ++ taken) := by
  induction ds generalizing taken with
  | nil => rfl
  | cons d ds ih =>
      obtain ⟨hd, hrest⟩ := List.nodup_cons.mp hnodup
      have hclaim : claim (rename, taken) d = (rename, d :: taken) := by
        simp [claim, hfree d (by simp)]
      rw [List.foldl_cons, hclaim, ih hrest]
      · simp
      · intro e he hmem
        rcases List.mem_cons.mp hmem with rfl | hmem
        · exact hd he
        · exact hfree e (List.mem_cons_of_mem d he) hmem

end Claims

/-! ## Separated phrases -/

/-- The renaming inside of a node and the names that are taken there. -/
def insideOf (rename : String → String) (taken : List String) (t : Phrase) : Renaming :=
  if t.label = .subselect then (t.declaredAliases.map rename).foldl claim (rename, taken)
  else (rename, taken)

theorem insideOf_subselect {rename : String → String} {taken : List String} {t : Phrase}
    (ht : t.label = .subselect) : insideOf rename taken t =
      (t.declaredAliases.map rename).foldl claim (rename, taken) := if_pos ht

theorem separate_node (rename : String → String) (taken : List String) (l : Label)
    (cs : List Phrase) (s : Source.Span) :
    separate rename taken (.node l cs s) =
      (.node (renameLabel rename l)
        (separateAll (insideOf rename taken (.node l cs s)).1
          (insideOf rename taken (.node l cs s)).2 cs).1 s,
        (separateAll (insideOf rename taken (.node l cs s)).1
          (insideOf rename taken (.node l cs s)).2 cs).2) := by
  rw [separate]
  rfl

section Separated

variable {rename : String → String} {taken : List String}

theorem label_separate (t : Phrase) :
    (separate rename taken t).1.label = renameLabel rename t.label := by
  obtain ⟨l, cs, s⟩ := t
  rw [separate_node]
  rfl

theorem identifier?_separate (t : Phrase) :
    (separate rename taken t).1.identifier? = t.identifier?.map rename := by
  unfold identifier?
  rw [label_separate]
  cases t.label <;> rfl

theorem children_separate {t : Phrase} (ht : t.label ≠ .subselect) :
    (separate rename taken t).1.children = (separateAll rename taken t.children).1 := by
  obtain ⟨l, cs, s⟩ := t
  rw [separate_node]
  simp only [Phrase.label] at ht
  simp [insideOf, Phrase.label, Phrase.children, ht]

theorem getElem?_separateAll (ts : List Phrase) (i : Nat) :
    ∃ between, (separateAll rename taken ts).1[i]? =
      ts[i]?.map fun t => (separate rename between t).1 := by
  induction ts generalizing taken i with
  | nil => exact ⟨taken, rfl⟩
  | cons t ts ih =>
      rw [separateAll]
      cases i with
      | zero => exact ⟨taken, rfl⟩
      | succ i => exact ih i

theorem declaredAlias?_separate {t : Phrase} (ht : t.label ≠ .subselect) :
    (separate rename taken t).1.declaredAlias? = t.declaredAlias?.map rename := by
  unfold declaredAlias? child?
  rw [children_separate ht]
  obtain ⟨between, heq⟩ := @getElem?_separateAll rename taken t.children 1
  rw [heq]
  cases t.children[1]? with
  | none => rfl
  | some u => exact identifier?_separate u

theorem filterMap_separateAll {ts : List Phrase} (hts : ∀ t ∈ ts, t.label ≠ .subselect) :
    (separateAll rename taken ts).1.filterMap declaredAlias? =
      (ts.filterMap declaredAlias?).map rename := by
  induction ts generalizing taken with
  | nil => rfl
  | cons t ts ih =>
      obtain ⟨ht, hts⟩ := List.forall_mem_cons.mp hts
      rw [separateAll, List.filterMap_cons, List.filterMap_cons, declaredAlias?_separate ht, ih hts]
      cases t.declaredAlias? <;> rfl

theorem drop_separateAll (ts : List Phrase) (n : Nat) :
    ∃ between, (separateAll rename taken ts).1.drop n =
      (separateAll rename between (ts.drop n)).1 := by
  induction n generalizing ts taken with
  | zero => exact ⟨taken, rfl⟩
  | succ n ih =>
      cases ts with
      | nil => exact ⟨taken, rfl⟩
      | cons t ts => exact ih ts

theorem flatMap_separateAll {items : List Phrase} (hitems : ∀ r ∈ items, r.label ≠ .subselect)
    (hjoins : ∀ j ∈ joinsOf items, j.label ≠ .subselect) :
    (joinsOf (separateAll rename taken items).1).filterMap declaredAlias? =
      ((joinsOf items).filterMap declaredAlias?).map rename := by
  induction items generalizing taken with
  | nil => rfl
  | cons r items ih =>
      obtain ⟨hr, hitems⟩ := List.forall_mem_cons.mp hitems
      simp only [joinsOf, List.flatMap_cons, List.mem_append] at hjoins
      obtain ⟨between, hdrop⟩ := @drop_separateAll rename taken r.children 2
      have hrest := @ih (separate rename taken r).2 hitems fun j hj => hjoins j (Or.inr hj)
      simp only [joinsOf] at hrest
      simp only [separateAll, joinsOf, List.flatMap_cons, List.filterMap_append, List.map_append]
      rw [children_separate hr, hdrop, filterMap_separateAll fun j hj => hjoins j (Or.inl hj), hrest]

theorem findChild?_separateAll (ts : List Phrase) :
    ∃ between, (separateAll rename taken ts).1.find? (fun c => decide (c.label = .fromClause)) =
      (ts.find? fun c => decide (c.label = .fromClause)).map
        fun t => (separate rename between t).1 := by
  induction ts generalizing taken with
  | nil => exact ⟨taken, rfl⟩
  | cons t ts ih =>
      have hlabel : (separate rename taken t).1.label = .fromClause ↔ t.label = .fromClause := by
        rw [label_separate]
        cases t.label <;> simp [renameLabel]
      rw [separateAll]
      by_cases ht : t.label = .fromClause
      · refine ⟨taken, ?_⟩
        rw [List.find?_cons_of_pos (by simpa using hlabel.mpr ht),
          List.find?_cons_of_pos (by simpa using ht)]
        rfl
      · rw [List.find?_cons_of_neg (by simpa using fun h => ht (hlabel.mp h)),
          List.find?_cons_of_neg (by simpa using ht)]
        exact ih

theorem declaredAliases_separate {distinct : Bool} {cs items rest : List Phrase}
    {s₁ s₂ s₃ : Source.Span} (hitems : ∀ r ∈ items, r.IsRange)
    (hjoins : ∀ j ∈ joinsOf items, j.IsJoin) :
    let t := Phrase.node .subselect (.node (.selectClause distinct) cs s₁
      :: .node .fromClause items s₂ :: rest) s₃
    (separate rename taken t).1.declaredAliases =
      t.declaredAliases.map (insideOf rename taken t).1 := by
  intro t
  have hitem : ∀ r ∈ items, r.label ≠ .subselect := by
    intro r hr
    obtain ⟨a, entity, js, s₁, s₂, s₃, -⟩ := hitems r hr
    simp [Phrase.label]
  have hjoin : ∀ j ∈ joinsOf items, j.label ≠ .subselect := by
    intro j hj
    cases hjoins j hj <;> simp [Phrase.label]
  have hsplit : ∀ us : List Phrase, us.flatMap (fun item =>
      (item.children.drop 2).filterMap declaredAlias?) = (joinsOf us).filterMap declaredAlias? :=
    fun us => (List.filterMap_flatMap).symm
  obtain ⟨between, hfrom⟩ := @findChild?_separateAll (insideOf rename taken t).1
    (insideOf rename taken t).2 t.children
  have hclause : t.children.find? (fun c => decide (c.label = .fromClause)) =
      some (.node .fromClause items s₂) := by
    simp [t, Phrase.children, Phrase.label]
  rw [hclause, Option.map_some] at hfrom
  have hchildren : (separate rename taken t).1.children =
      (separateAll (insideOf rename taken t).1 (insideOf rename taken t).2 t.children).1 := by
    rw [separate_node]
    rfl
  rw [declaredAliases_subselect]
  unfold declaredAliases findChild?
  rw [hchildren, hfrom]
  simp only [hsplit, List.map_append]
  rw [children_separate (by simp [Phrase.label]), Phrase.children,
    filterMap_separateAll hitem, flatMap_separateAll hitem hjoin]

theorem mem_insideOf {t : Phrase} {name : String} (h : name ∈ taken) :
    name ∈ (insideOf rename taken t).2 := by
  unfold insideOf
  split
  · exact mem_foldl_claim _ _ h
  · exact h

mutual

theorem mem_separate : ∀ {t : Phrase} {rename : String → String} {taken : List String}
    {name : String}, name ∈ taken → name ∈ (separate rename taken t).2
  | .node l cs s, rename, taken, name, h => by
      rw [separate_node]
      exact mem_separateAll (mem_insideOf h)

theorem mem_separateAll : ∀ {ts : List Phrase} {rename : String → String} {taken : List String}
    {name : String}, name ∈ taken → name ∈ (separateAll rename taken ts).2
  | [], _, _, _, h => h
  | t :: ts, rename, taken, name, h => by
      rw [separateAll]
      exact mem_separateAll (mem_separate h)

end

end Separated

mutual

/-- No taken name is declared by a separated phrase. -/
theorem notDeclared_separate : ∀ {t : Phrase} {rename : String → String} {taken : List String}
    {name : String}, Query.Grammar.Sound t → name ∈ taken →
      NotDeclared name (separate rename taken t).1
  | .node l cs s, rename, taken, name, hsound, hname => by
      intro u hu hlabel
      rw [separate_node] at hu
      simp only [nodes, visit, if_true, List.mem_cons] at hu
      rcases hu with rfl | hu
      · have hl : l = .subselect := by
          cases l <;> simp_all [Phrase.label, renameLabel]
        subst hl
        cases hsound _ (mem_nodes_self _) rfl with
        | reference ht _ => rcases ht.label_cases with h | h <;> cases h
        | leaf _ hleaf => cases hleaf
        | compound _ hcompound _ => cases hcompound
        | @subselect _ ds items rest distinct s₁ s₂ _ hitems hjoins _ _ _ =>
            have hdeclared := @declaredAliases_separate rename taken distinct ds items rest s₁ s₂ s
              hitems (Query.Grammar.isJoin_of_joinsWithin hjoins)
            simp only [separate_node] at hdeclared
            rw [hdeclared, List.mem_map, insideOf_subselect rfl]
            rintro ⟨a, ha, rfl⟩
            exact claimed_not_mem _ ha hname
      · obtain ⟨v, hv, hu⟩ := mem_visitAll.mp hu
        refine notDeclared_separateAll (fun t ht w hw => ?_) (mem_insideOf hname) v hv u hu hlabel
        exact hsound w (mem_nodes_of_child ht hw)

theorem notDeclared_separateAll : ∀ {ts : List Phrase} {rename : String → String}
    {taken : List String} {name : String}, (∀ t ∈ ts, Query.Grammar.Sound t) → name ∈ taken →
      ∀ u ∈ (separateAll rename taken ts).1, NotDeclared name u
  | [], _, _, _, _, _, u, hu => by cases hu
  | t :: ts, rename, taken, name, hsound, hname, u, hu => by
      obtain ⟨ht, hts⟩ := List.forall_mem_cons.mp hsound
      rw [separateAll] at hu
      rcases List.mem_cons.mp hu with rfl | hu
      · exact notDeclared_separate ht hname
      · exact notDeclared_separateAll hts (mem_separate hname) u hu

end

/-! ## Nothing to rename -/

/-- The aliases that the subselects of a phrase declare. -/
def declaredWithin (t : Phrase) : List String :=
  (t.collect fun n => n.label == .subselect).flatMap declaredAliases

def declaredWithinAll (ts : List Phrase) : List String := ts.flatMap declaredWithin

theorem declaredWithin_node (l : Label) (cs : List Phrase) (s : Source.Span) :
    declaredWithin (.node l cs s) =
      (if l = .subselect then declaredAliases (.node l cs s) else []) ++ declaredWithinAll cs := by
  have hall : ∀ ts : List Phrase, ((visitAll (fun _ => true) ts).filter fun n =>
      n.label == .subselect).flatMap declaredAliases = declaredWithinAll ts := by
    intro ts
    induction ts with
    | nil => rfl
    | cons t ts ih =>
        rw [visitAll, List.filter_append, List.flatMap_append, ih]
        rfl
  unfold declaredWithin collect nodes
  rw [visit, if_pos rfl, List.filter_cons]
  have hlabel : (Phrase.node l cs s).label = l := rfl
  rw [hlabel]
  by_cases hl : l = .subselect
  · rw [if_pos hl, if_pos (beq_iff_eq.mpr hl), List.flatMap_cons, hall]
  · rw [if_neg hl, if_neg fun h => hl (beq_iff_eq.mp h), hall]
    rfl

mutual

/-- With different aliases, none of them taken, a phrase stays as it is. -/
theorem separate_of_distinct : ∀ {t : Phrase} {taken : List String}, (declaredWithin t).Nodup →
    (∀ a ∈ declaredWithin t, a ∉ taken) →
      separate id taken t = (t, (declaredWithin t).reverse ++ taken)
  | .node l cs s, taken, hnodup, hfree => by
      rw [declaredWithin_node] at hnodup hfree
      obtain ⟨hown, hinner, hapart⟩ := List.nodup_append.mp hnodup
      have hinside : insideOf id taken (.node l cs s) =
          (id, (if l = .subselect then declaredAliases (.node l cs s) else []).reverse ++ taken) := by
        unfold insideOf
        by_cases hl : l = .subselect
        · subst hl
          simp only [Phrase.label, if_true, List.map_id] at hown hfree ⊢
          exact foldl_claim_of_not_mem hown fun a ha => hfree a (List.mem_append_left _ ha)
        · simp [Phrase.label, hl]
      have hchildren := @separateAll_of_distinct _
          ((if l = .subselect then declaredAliases (.node l cs s) else []).reverse ++ taken) hinner (by
        intro a ha hmem
        rcases List.mem_append.mp hmem with hmem | hmem
        · exact hapart a (List.mem_reverse.mp hmem) a ha rfl
        · exact hfree a (List.mem_append_right _ ha) hmem)
      have hlabel : renameLabel id l = l := by cases l <;> rfl
      rw [separate_node, hinside, hchildren, hlabel, declaredWithin_node, List.reverse_append,
        List.append_assoc]

theorem separateAll_of_distinct : ∀ {ts : List Phrase} {taken : List String},
    (declaredWithinAll ts).Nodup → (∀ a ∈ declaredWithinAll ts, a ∉ taken) →
      separateAll id taken ts = (ts, (declaredWithinAll ts).reverse ++ taken)
  | [], _, _, _ => rfl
  | t :: ts, taken, hnodup, hfree => by
      simp only [declaredWithinAll, List.flatMap_cons] at hnodup hfree
      obtain ⟨hfirst, hrest, hapart⟩ := List.nodup_append.mp hnodup
      have hothers := @separateAll_of_distinct ts ((declaredWithin t).reverse ++ taken) hrest (by
        intro a ha hmem
        rcases List.mem_append.mp hmem with hmem | hmem
        · exact hapart a (List.mem_reverse.mp hmem) a ha rfl
        · exact hfree a (List.mem_append_right _ ha) hmem)
      rw [separateAll, separate_of_distinct hfirst fun a ha => hfree a (List.mem_append_left _ ha)]
      simp only [hothers, declaredWithinAll, List.flatMap_cons, List.reverse_append,
        List.append_assoc]

end

end RowGuard
