import RowGuard.Proofs.Lookups
import RowGuard.Proofs.Renamings

/-!
# Renaming without capture

Keeping aliases apart gives an alias another name by putting a number behind it.
The new name is none that is reserved, but nothing keeps it from being a name
that the phrase has already.  Where the phrase has no such name, or has it
reserved, and no join means another declaration by a name that its own from
clause goes on to declare, every name refers to the same declaration as before.

The proof goes along the phrase with everything that a part needs from the parts
before it: what they have declared, what is taken, and the renaming in force.
-/

namespace RowGuard

open Query (Label Phrase)
open Query.Phrase
open Restriction

/-! ## Phrases -/

/-- All that keeping the aliases of a part of a phrase apart goes by: what has been declared
in front of it, what is taken, the renaming in force and what free names refer to. -/
structure Ready (k : Link) (before : List String) (whole : Phrase) (P : String → Prop) (ρ : Pairs)
    (seen : List String) (rename : String → String) (taken declared names : List String) :
    Prop where
  ahead : seen ++ declared <+: declaredWithin whole
  reserved : Reserved before seen taken
  renames : Renames seen taken names rename
  free : ∀ n, P n → n ∈ names → Refers k ρ n (rename n) []

/-- What has become of a part of a phrase. -/
structure KeptApart (k : Link) (before : List String) (ρ : Pairs) (seen : List String) (t : Phrase)
    (separated : Phrase × List String) : Prop where
  corresponds : ∀ d, t.depth ≤ d → Corresponds k d d ρ t separated.1
  reserved : Reserved before (seen ++ declaredWithin t) separated.2
  alike : List.Forall₂ DeclaresAlike (subselects t) (subselects separated.1)

structure AllKeptApart (k : Link) (before : List String) (ρ : Pairs) (seen : List String)
    (ts : List Phrase) (separated : List Phrase × List String) : Prop where
  corresponds : ∀ d, depthAll ts ≤ d → AllCorrespond k d d ρ ts separated.1
  reserved : Reserved before (seen ++ declaredWithinAll ts) separated.2
  alike : List.Forall₂ DeclaresAlike (ts.flatMap subselects) (separated.1.flatMap subselects)

section Phrases

variable {k : Link} {before : List String} {whole : Phrase} {P : String → Prop} {ρ : Pairs}
  {seen taken declared names : List String} {rename : String → String}

theorem Ready.mono {declared' names' : List String}
    (h : Ready k before whole P ρ seen rename taken declared names)
    (hdeclared : declared' <+: declared)
    (hnames : names' ⊆ names) : Ready k before whole P ρ seen rename taken declared' names' where
  ahead := ((List.prefix_append_right_inj seen).mpr hdeclared).trans h.ahead
  reserved := h.reserved
  renames := h.renames.mono (fun _ hn => hn) (fun _ hn => hn) hnames
  free n hn hmem := h.free n hn (hnames hmem)

/-- Behind a part that is kept apart, everything is ready for the next. -/
theorem Ready.next {more taken' : List String}
    (h : Ready k before whole P ρ seen rename taken (declared ++ more) names)
    (hreserved : Reserved before (seen ++ declared) taken') (htaken : taken ⊆ taken') :
    Ready k before whole P ρ (seen ++ declared) rename taken' more names where
  ahead := by rw [List.append_assoc]; exact h.ahead
  reserved := hreserved
  renames := h.renames.mono (fun _ hn => List.mem_append_left _ hn) htaken fun _ hn => hn
  free := h.free

/-- Parts that are kept apart one after the other. -/
theorem separateAll_keptApart {ts : List Phrase}
    (hts : ∀ t ∈ ts, ∀ seen taken,
      Ready k before whole P ρ seen rename taken (declaredWithin t) (namesIn t) →
        KeptApart k before ρ seen t (separate rename taken t))
    (h : Ready k before whole P ρ seen rename taken (declaredWithinAll ts) (namesInAll ts)) :
    AllKeptApart k before ρ seen ts (separateAll rename taken ts) := by
  induction ts generalizing seen taken with
  | nil => exact ⟨fun _ _ => .nil, by simpa [declaredWithinAll, separateAll] using h.reserved, .nil⟩
  | cons t ts ih =>
      obtain ⟨ht, hts⟩ := List.forall_mem_cons.mp hts
      simp only [declaredWithinAll, namesInAll, List.flatMap_cons] at h
      have hfirst := ht seen taken (h.mono (List.prefix_append _ _) (List.subset_append_left _ _))
      have hothers := ih hts ((h.next hfirst.reserved fun _ hn => mem_separate hn).mono
        List.prefix_rfl (List.subset_append_right _ _))
      refine ⟨fun d hd => ?_, ?_, ?_⟩
      · simp only [depthAll] at hd
        exact .cons (hfirst.corresponds d (by omega)) (hothers.corresponds d (by omega))
      · simpa [declaredWithinAll, separateAll_cons] using hothers.reserved
      · exact List.rel_append hfirst.alike hothers.alike

theorem getElem?_map_eq_iff {as : List String}
    (hinjective : ∀ m ∈ names, ∀ n ∈ names, rename m = rename n → m = n) (has : as ⊆ names)
    (i j : Nat) : (as.map rename)[i]? = (as.map rename)[j]? ↔ as[i]? = as[j]? := by
  rw [List.getElem?_map, List.getElem?_map]
  cases hi : as[i]? with
  | none => cases as[j]? <;> simp
  | some m =>
      cases hj : as[j]? with
      | none => simp
      | some n =>
          simp only [Option.map_some, Option.some.injEq]
          exact ⟨hinjective m (has (List.mem_of_getElem? hi)) n (has (List.mem_of_getElem? hj)),
            congrArg rename⟩

mutual

theorem length_subselects_separate : ∀ (t : Phrase) (rename : String → String)
    (taken : List String),
    (subselects (separate rename taken t).1).length = (subselects t).length
  | .node l cs s, rename, taken => by
      rw [separate_node, subselects_node, subselects_node, List.length_append, List.length_append,
        length_subselects_separateAll cs]
      cases l <;> rfl

theorem length_subselects_separateAll : ∀ (ts : List Phrase) (rename : String → String)
    (taken : List String),
    ((separateAll rename taken ts).1.flatMap subselects).length = (ts.flatMap subselects).length
  | [], _, _ => rfl
  | t :: ts, rename, taken => by
      rw [separateAll_cons, List.flatMap_cons, List.flatMap_cons, List.length_append,
        List.length_append, length_subselects_separate t, length_subselects_separateAll ts]

end

theorem subselects_reference {t : Phrase} {n : String} {ws : List String} (h : t.IsReference n ws) :
    subselects t = [] := by
  have hsegments : ∀ {segments : List Phrase} {ws : List String}, AreSegments segments ws →
      segments.flatMap subselects = [] := by
    intro segments ws h
    induction h with
    | nil => rfl
    | cons s _ _ ih => simp [subselects_node, ih]
  cases h with
  | name s _ => simp [subselects_node]
  | path r s _ h => simp [subselects_node, hsegments h]

/-- From clauses have no subselects. -/
theorem subselects_fromClause {items : List Phrase} {s : Source.Span}
    (hitems : ∀ r ∈ items, r.IsRange) (hjoins : ∀ j ∈ joinsOf items, j.IsJoin) :
    subselects (.node .fromClause items s) = [] := by
  have hjoin : ∀ {j : Phrase}, j.IsJoin → subselects j = [] := by
    intro j hj
    cases hj with
    | bare _ _ s hp => simp [subselects_node, subselects_reference hp]
    | named _ _ s r hp _ => simp [subselects_node, subselects_reference hp]
  have hitem : ∀ r ∈ items, subselects r = [] := by
    intro r hr
    have hown : ∀ j ∈ r.children.drop 2, subselects j = [] :=
      fun j hj => hjoin (hjoins j (List.mem_flatMap.mpr ⟨r, hr, hj⟩))
    obtain ⟨a, entity, js, s₁, s₂, s₃, -⟩ := hitems r hr
    simpa [subselects_node, Phrase.children] using hown
  simpa [subselects_node] using hitem

theorem declaredWithin_eq (t : Phrase) :
    declaredWithin t = (subselects t).flatMap declaredAliases := rfl

/-- The step at a subselect: its own aliases are claimed, then everything in it is ready. -/
theorem keptApart_subselect {distinct : Bool} {cs items rest : List Phrase}
    {s₁ s₂ s₃ : Source.Span} (hitems : ∀ r ∈ items, r.IsRange)
    (hjoins : JoinsWithin P (rangeAliases items) (joinsOf items))
    (hfinal : ∀ t ∈ rest, t.label.isFinalClause) (hexact : ¬ k.exact)
    (hspared : Spared before whole)
    (hwhole : Phrase.node .subselect (.node (.selectClause distinct) cs s₁
      :: .node .fromClause items s₂ :: rest) s₃ ∈ whole.nodes)
    (hclauses : ∀ c, c ∈ cs ∨ c ∈ rest → ∀ {σ rename seen taken},
      Ready k before whole (fun n => n ∈ itemAliases items ∨ P n) σ seen rename taken
        (declaredWithin c) (namesIn c) → KeptApart k before σ seen c (separate rename taken c))
    (h : Ready k before whole P ρ seen rename taken
      (declaredWithin (.node .subselect (.node (.selectClause distinct) cs s₁
        :: .node .fromClause items s₂ :: rest) s₃))
      (namesIn (.node .subselect (.node (.selectClause distinct) cs s₁
        :: .node .fromClause items s₂ :: rest) s₃))) :
    KeptApart k before ρ seen (.node .subselect (.node (.selectClause distinct) cs s₁
        :: .node .fromClause items s₂ :: rest) s₃)
      (separate rename taken (.node .subselect (.node (.selectClause distinct) cs s₁
        :: .node .fromClause items s₂ :: rest) s₃)) := by
  have hisJoin := Query.Grammar.isJoin_of_joinsWithin hjoins
  have hfrom := subselects_fromClause (s := s₂) hitems hisJoin
  -- What the subselect declares and names.
  obtain ⟨t, ht⟩ : ∃ t, t = Phrase.node .subselect (.node (.selectClause distinct) cs s₁
    :: .node .fromClause items s₂ :: rest) s₃ := ⟨_, rfl⟩
  have hdeclaredAliases : t.declaredAliases = itemAliases items := by
    rw [ht, declaredAliases_subselect]
    rfl
  have hdeclared : declaredWithin t =
      itemAliases items ++ (declaredWithinAll cs ++ declaredWithinAll rest) := by
    have hclause : declaredWithin (.node .fromClause items s₂) = [] := by
      rw [declaredWithin_eq, hfrom, List.flatMap_nil]
    rw [ht, declaredWithin_node, if_pos rfl, ← ht, hdeclaredAliases]
    simp [declaredWithinAll, hclause, declaredWithin_node]
  have hnames : ∀ c, c ∈ cs ∨ c ∈ items ∨ c ∈ rest → namesIn c ⊆ namesIn t := by
    rw [ht]
    rintro c (hc | hc | hc)
    · exact List.Subset.trans (namesIn_subset hc)
        (namesIn_subset (t := .node (.selectClause distinct) cs s₁) (by simp))
    · exact List.Subset.trans (namesIn_subset hc)
        (namesIn_subset (t := .node .fromClause items s₂) (by simp))
    · exact namesIn_subset (by simp [hc])
  have hjoinNames : ∀ j ∈ joinsOf items, namesIn j ⊆ namesIn t := by
    intro j hj
    obtain ⟨⟨l, ds, r⟩, hr, hj⟩ := List.mem_flatMap.mp hj
    exact List.Subset.trans (namesIn_subset (List.mem_of_mem_drop hj))
      (hnames _ (Or.inr (Or.inl hr)))
  have haliases : itemAliases items ⊆ namesIn t := by
    intro a ha
    rcases List.mem_append.mp ha with ha | ha
    · obtain ⟨r, hr, ha⟩ := List.mem_filterMap.mp ha
      exact hnames r (Or.inr (Or.inl hr)) (mem_namesIn_alias ha)
    · obtain ⟨j, hj, ha⟩ := List.mem_filterMap.mp ha
      exact hjoinNames j hj (mem_namesIn_alias ha)
  rw [← ht] at h hwhole ⊢
  -- The renaming inside of it.
  have hahead : seen ++ ([] ++ itemAliases items) <+: declaredWithin whole := by
    refine ((List.prefix_append_right_inj seen).mpr ?_).trans h.ahead
    rw [hdeclared]
    exact List.prefix_append _ _
  have hclaims := Claims.foldl h.renames (fun a ha hcollides n hn =>
      hspared.names t hwhole (ht ▸ rfl) a (hdeclaredAliases ▸ ha) hcollides n hn) haliases
    (Claims.none h.reserved h.renames) hahead
  rw [List.nil_append] at hclaims
  obtain ⟨inner, hinner⟩ : ∃ inner, inner = insideOf rename taken t := ⟨_, rfl⟩
  rw [← hdeclaredAliases, ← insideOf_subselect (ht ▸ rfl), ← hinner, hdeclaredAliases] at hclaims
  have hrenames := hclaims.renames h.renames
  have hopen : ∀ n ∈ namesIn t, (P n ∧ (n ∈ t.declaredAliases → ¬ Collides before whole n)) →
      Refers k ρ n (inner.1 n) [] := by
    rintro n hn ⟨hfree, hplain⟩
    rcases hclaims.moved n hn with heq | ⟨hmem, hcollides, -⟩
    · rw [heq]
      exact h.free n hfree hn
    · exact absurd hcollides (hplain (hdeclaredAliases ▸ hmem))
  have hreverse : (itemAliases items).reverse ⊆ namesIn t :=
    fun n hn => haliases (List.mem_reverse.mp hn)
  have hranges : rangeAliases items ⊆ itemAliases items := List.subset_append_left _ _
  have hjoined : (joinsOf items).filterMap declaredAlias? ⊆ itemAliases items :=
    List.subset_append_right _ _
  have hwords : ∀ n ∈ namesIn t, IsWord n → IsWord (inner.1 n) :=
    fun n hn => hrenames.isWord hn
  -- The select clause, the from clause and the clauses behind it, one after the other.
  have hready : Ready k before whole (fun n => n ∈ itemAliases items ∨ P n)
      (renamedPairs inner.1 (itemAliases items).reverse ++ ρ) (seen ++ itemAliases items) inner.1
      inner.2 (declaredWithinAll cs ++ declaredWithinAll rest) (namesIn t) := by
    refine ⟨by rw [List.append_assoc, ← hdeclared]; exact h.ahead, hclaims.reserved, hrenames,
      fun n hn hmem => ?_⟩
    refine refers_renamed hrenames.injective hreverse hmem fun hnot => ?_
    rw [List.mem_reverse] at hnot
    exact hopen n hmem ⟨hn.resolve_left hnot, fun hin => absurd (hdeclaredAliases ▸ hin) hnot⟩
  have hselect := separateAll_keptApart (fun c hc _ _ => hclauses c (Or.inl hc))
    (hready.mono (List.prefix_append _ _)
      (namesInAll_subset fun c hc => hnames c (Or.inl hc)))
  have hrest := separateAll_keptApart (fun c hc _ _ => hclauses c (Or.inr hc))
    ((hready.next hselect.reserved fun _ hn => mem_separateAll hn).mono List.prefix_rfl
      (namesInAll_subset fun c hc => hnames c (Or.inr (Or.inr hc))))
  obtain ⟨hitems', hjoinsOf, htaken⟩ := rangesCorrespond_separate
    (separateAll inner.1 inner.2 cs).2 hitems hisJoin hrenames.injective hwords
    (fun _ hn => haliases (hranges hn)) [] (List.nil_subset _)
  rw [List.append_nil] at hitems'
  have hordered := hspared.joins t hwhole (ht ▸ rfl)
  have hfromItems : fromItems t = items := by
    rw [ht]
    simp [fromItems, findChild?, Phrase.children, Phrase.label]
  rw [hfromItems] at hordered
  have hjoins' := joinsCorrespond_separate (separateAll inner.1 inner.2 cs).2
    (rangeAliases items).reverse (hjoins.and hordered) hrenames.injective hwords hopen
    (fun n => List.mem_reverse.symm)
    (fun n hn => haliases (hranges (List.mem_reverse.mp hn))) hjoinNames hreverse
    (fun n hn => List.mem_reverse.mpr (hranges (List.mem_reverse.mp hn)))
    (fun n hn => List.mem_reverse.mpr (hjoined hn))
  rw [← List.reverse_append, ← hjoinsOf] at hjoins'
  have hseparated : separate rename taken t = (.node .subselect
      (.node (.selectClause distinct) (separateAll inner.1 inner.2 cs).1 s₁
        :: .node .fromClause
          (separateAll inner.1 (separateAll inner.1 inner.2 cs).2 items).1 s₂
        :: (separateAll inner.1 (separateAll inner.1 inner.2 cs).2 rest).1) s₃,
      (separateAll inner.1 (separateAll inner.1 inner.2 cs).2 rest).2) := by
    rw [ht, separate_node, ← ht, ← hinner, separateAll_cons, separateAll_cons,
      separate_plain (by simp), separate_plain (by simp), htaken]
    rfl
  refine ⟨fun d hd => ?_, ?_, ?_⟩
  · rw [hseparated, ht]
    rw [ht] at hd
    simp only [depth, depthAll, if_true] at hd
    obtain ⟨e, rfl⟩ : ∃ e, d = e + 1 := ⟨d - 1, by omega⟩
    exact .subselect distinct s₁ s₂ s₃ s₁ s₂ s₃ hitems' hjoins'
      (hselect.corresponds e (by omega)) (hrest.corresponds e (by omega)) hfinal
      fun h => absurd h hexact
  · rw [hseparated, hdeclared]
    simpa only [List.append_assoc] using hrest.reserved
  · have hown : DeclaresAlike t (separate rename taken t).1 := by
      intro i j
      have hmap : (separate rename taken t).1.declaredAliases = t.declaredAliases.map inner.1 := by
        rw [hinner, ht]
        exact declaredAliases_separate hitems hisJoin
      rw [hmap]
      exact getElem?_map_eq_iff hrenames.injective (hdeclaredAliases ▸ haliases) i j
    have hclause : subselects (.node .fromClause
        (separateAll inner.1 (separateAll inner.1 inner.2 cs).2 items).1 s₂) = [] := by
      have hlength := length_subselects_separate (.node .fromClause items s₂) inner.1
        (separateAll inner.1 inner.2 cs).2
      rw [hfrom, separate_plain (by simp)] at hlength
      exact List.length_eq_zero_iff.mp hlength
    have hleft : subselects t = t :: (cs.flatMap subselects ++ rest.flatMap subselects) := by
      rw [ht, subselects_node, if_pos rfl]
      simp [subselects_node (.selectClause distinct), hfrom]
    have hright : subselects (separate rename taken t).1 = (separate rename taken t).1 ::
        ((separateAll inner.1 inner.2 cs).1.flatMap subselects ++
          (separateAll inner.1 (separateAll inner.1 inner.2 cs).2 rest).1.flatMap subselects) := by
      rw [hseparated, subselects_node, if_pos rfl]
      simp [subselects_node (.selectClause distinct), hclause]
    rw [hleft, hright]
    exact .cons hown (List.rel_append hselect.alike hrest.alike)

/-- What is spared in the whole is kept apart in each part. -/
theorem Query.Phrase.Within.keptApart {t : Phrase} (ht : Within P t)
    (hleaf : ∀ l : Label, l.isLeaf → k.leaf l l) (hexact : ¬ k.exact)
    (hspared : Spared before whole)
    (hwhole : ∀ u ∈ t.nodes, u ∈ whole.nodes) {ρ : Pairs} {seen taken : List String}
    {rename : String → String}
    (h : Ready k before whole P ρ seen rename taken (declaredWithin t) (namesIn t)) :
    KeptApart k before ρ seen t (separate rename taken t) := by
  induction ht generalizing ρ seen taken rename with
  | reference ht hn =>
      have hmem := mem_namesIn_reference ht
      obtain ⟨hu, htaken⟩ := separate_reference rename taken ht
      have hu := hu (h.renames.isWord hmem ht.isWord_root)
      have hnone := subselects_reference ht
      refine ⟨fun d _ => .reference ht hu (h.free _ hn hmem), ?_, ?_⟩
      · rw [declaredWithin_eq, hnone, List.flatMap_nil, List.append_nil, htaken]
        exact h.reserved
      · rw [hnone, subselects_reference hu]
        exact .nil
  | @leaf P l s hl =>
      have hlabel : l ≠ .subselect := by rintro rfl; cases hl
      have hrename : renameLabel rename l = l := by cases l <;> first | rfl | cases hl
      rw [separate_plain hlabel, hrename]
      refine ⟨fun d _ => .leaf s s hl hl (hleaf l hl), ?_, ?_⟩
      · simpa [declaredWithin_node, declaredWithinAll, hlabel, separateAll] using h.reserved
      · simp [subselects_node, hlabel, separateAll]
  | subselect distinct s₁ s₂ s₃ hitems hjoins _ _ hfinal hselect hrest =>
      refine keptApart_subselect hitems hjoins hfinal hexact hspared (hwhole _ (mem_nodes_self _))
        ?_ h
      rintro c (hc | hc) σ rename seen taken hready
      · exact hselect c hc (fun u hu => hwhole u (mem_nodes_of_child List.mem_cons_self
          (mem_nodes_of_child hc hu))) hready
      · exact hrest c hc (fun u hu => hwhole u (mem_nodes_of_child (by simp [hc]) hu)) hready
  | @compound P l ts s hcompound _ ih =>
      have hlabel : l ≠ .subselect := by rintro rfl; cases hcompound
      have hrename : renameLabel rename l = l := by cases l <;> first | rfl | cases hcompound
      have hdeclared : declaredWithin (.node l ts s) = declaredWithinAll ts := by
        rw [declaredWithin_node, if_neg hlabel, List.nil_append]
      rw [hdeclared] at h
      have hall := separateAll_keptApart (fun t ht _ _ => ih t ht fun u hu =>
        hwhole u (mem_nodes_of_child ht hu)) (h.mono List.prefix_rfl
          (namesInAll_subset fun t ht => namesIn_subset ht))
      rw [separate_plain hlabel, hrename]
      refine ⟨fun d hd => ?_, ?_, ?_⟩
      · simp only [depth, hlabel, if_false] at hd
        exact .compound s s hcompound (hall.corresponds d (by omega))
      · rw [hdeclared]
        exact hall.reserved
      · simpa [subselects_node, hlabel] using hall.alike

end Phrases

/-! ## Checking what is spared -/

instance (taken : List String) (t : Phrase) (a : String) : Decidable (Collides taken t a) :=
  inferInstanceAs (Decidable (_ ∨ _ ∨ _))

/-- Whether keeping the aliases of a phrase apart captures nothing. -/
def isSpared (taken : List String) (t : Phrase) : Bool :=
  (subselects t).all fun u =>
    (u.declaredAliases.all fun a => !decide (Collides taken t a) ||
      (namesIn u).all fun n => !isNumbered a n || taken.contains n) &&
    joinsStart (fun n => !(u.declaredAliases.contains n && decide (Collides taken t n)))
      (rangeAliases (fromItems u)) (joinsOf (fromItems u))

theorem spared_of_isSpared {taken : List String} {t : Phrase} (ht : Query.Grammar.Sound t)
    (h : isSpared taken t) : Spared taken t := by
  have hall : ∀ u ∈ t.nodes, u.label = .subselect →
      (∀ a ∈ u.declaredAliases, Collides taken t a → ∀ n ∈ namesIn u, isNumbered a n → n ∈ taken) ∧
      joinsStart (fun n => !(u.declaredAliases.contains n && decide (Collides taken t n)))
        (rangeAliases (fromItems u)) (joinsOf (fromItems u)) := by
    intro u hu hlabel
    have hmem : u ∈ subselects t := List.mem_filter.mpr ⟨hu, by simp [hlabel]⟩
    have hboth := List.all_eq_true.mp h u hmem
    rw [Bool.and_eq_true] at hboth
    refine ⟨fun a ha hcollides n hn hnumbered => ?_, hboth.2⟩
    have hnames := List.all_eq_true.mp hboth.1 a ha
    simp only [hcollides, decide_true, Bool.not_true, Bool.false_or] at hnames
    simpa [hnumbered] using List.all_eq_true.mp hnames n hn
  refine ⟨fun u hu hlabel => (hall u hu hlabel).1, fun u hu hlabel => ?_⟩
  refine (joinsWithin_of_joinsStart (isJoin_of_sound ht hu hlabel) (hall u hu hlabel).2).mono ?_
  intro n hn hdeclared
  simpa [hdeclared] using hn

/-! ## Capture -/

namespace Restriction

variable {taken : List String} {t : Phrase}

theorem ready_start {k : Link} {P : String → Prop} (hfree : ∀ n, P n → k.free n n []) :
    Ready k taken t P [] [] id taken (declaredWithin t) (namesIn t) where
  ahead := List.prefix_rfl
  reserved := ⟨fun _ hn => hn, fun _ hy => Or.inl hy⟩
  renames := Renames.id [] taken (namesIn t)
  free n hn _ := Refers.nil_iff.mpr (hfree n hn)

/-- Renaming avoids capture.  No subselect declares a reserved alias then, and where names are
spared, every name refers to the same declaration as before, every free one is still free, and
a subselect repeats just the aliases that it repeated before. -/
theorem separate_avoids_capture (ht : t.WellFormed) (taken : List String) :
    (∀ name ∈ taken, NotDeclared name (separate id taken t).1) ∧
      (Spared taken t →
        Corresponds Link.keeping t.depth t.depth [] t (separate id taken t).1 ∧
        List.Forall₂ DeclaresAlike (subselects t) (subselects (separate id taken t).1)) := by
  refine ⟨fun _ hname => notDeclared_separate (Query.Grammar.sound_of_within ht) hname, ?_⟩
  intro hspared
  have hkept := ht.keptApart (k := Link.keeping) (fun _ _ => rfl) id hspared (fun _ hu => hu)
    (ready_start fun _ _ => ⟨rfl, rfl⟩)
  exact ⟨hkept.corresponds _ (Nat.le_refl _), hkept.alike⟩

/-- So the condition of a rule says with the new aliases what it said before, its subject
being what it names freely. -/
theorem apart_of_spared {r : AccessRule} {condition : Phrase}
    (hwithin : Within (· = r.subject) condition) (hspared : Spared taken condition) :
    ∃ i j, Corresponds (Link.renaming r.subject) i j [] condition
      (separate id taken condition).1 := by
  have hkept := hwithin.keptApart (k := Link.renaming r.subject) (fun _ _ => rfl) id hspared
    (fun _ hu => hu) (ready_start fun n hn => ⟨hn, hn, rfl⟩)
  exact ⟨_, _, hkept.corresponds _ (Nat.le_refl _)⟩

/-! ## Documents of one owner -/

def ownedMapping : Mapping where
  classes := [{ name := "Document", properties := [⟨"owner", .basic⟩, ⟨"reviewer", .basic⟩] }]

/-- Two subselects declare one alias, with a join between them and a name that has a number. -/
def nestedRule : String :=
  "GRANT READ ACCESS TO Document d WHERE EXISTS (SELECT x FROM Document x JOIN x.owner y " ++
    "WHERE x.reviewer = d.owner AND NOT EXISTS (SELECT x FROM Document x, Document y1 " ++
    "WHERE x.owner = y AND y1 = d))"

/-- Its condition with the new aliases. -/
def nestedCondition : String :=
  "EXISTS (SELECT x0 FROM Document x0 INNER JOIN x0.owner y " ++
    "WHERE x0.reviewer = d.owner AND NOT EXISTS (SELECT x00 FROM Document x00, Document y1 " ++
    "WHERE x00.owner = y AND y1 = d))"

/-- In a query with the same alias, each of the two gets a name of its own. -/
theorem separate_avoids_capture_nested :
    ∃ rules r condition, AccessRule.ofText ownedMapping 0 nestedRule = .ok rules ∧
      r ∈ rules ∧ r.condition? = some condition ∧
      (condition.WellFormed ∧ Spared ["x"] condition) ∧
      (separate id ["x"] condition).1.render = nestedCondition ∧
      (∀ name ∈ ["x"], NotDeclared name (separate id ["x"] condition).1) ∧
      Corresponds Link.keeping condition.depth condition.depth [] condition
        (separate id ["x"] condition).1 ∧
      List.Forall₂ DeclaresAlike (subselects condition)
        (subselects (separate id ["x"] condition).1) := by
  have hfound : (AccessRule.ofText ownedMapping 0 nestedRule).toOption.any fun rules =>
      rules.head?.any fun r => r.condition?.any fun condition => isSpared ["x"] condition &&
        (separate id ["x"] condition).1.render == nestedCondition := by
    decide +kernel
  obtain ⟨rules, hrules, hfound⟩ := Query.Scope.ok_of_any hfound
  obtain ⟨r, hr, hfound⟩ := (Option.any_eq_true _ _).mp hfound
  obtain ⟨condition, hcondition, hfound⟩ := (Option.any_eq_true _ _).mp hfound
  obtain ⟨hspared, htext⟩ := (Bool.and_eq_true _ _).mp hfound
  have hr := List.mem_of_head? hr
  obtain ⟨hwithin, -⟩ := AccessRule.checked_condition hrules hr hcondition
  have hwell : condition.WellFormed := hwithin.mono fun _ _ => trivial
  have hspared := spared_of_isSpared (Query.Grammar.sound_of_within hwell) hspared
  obtain ⟨hfree, hkept⟩ := separate_avoids_capture hwell ["x"]
  exact ⟨rules, r, condition, hrules, hr, hcondition, ⟨hwell, hspared⟩, beq_iff_eq.mp htext, hfree,
    hkept hspared⟩

/-- The documents that the owner of the object reviews. -/
def capturedRule : String :=
  "GRANT READ ACCESS TO Document x0 WHERE EXISTS (SELECT x FROM Document x " ++
    "WHERE x.reviewer = x0.owner)"

/-- The new name of the alias `x` may be that of the subject, which is captured then: the rule
asks for a document that the owner of the object reviews, and what has become of it for one
that its own owner reviews. -/
theorem separate_captures_subject :
    ∃ rules r condition, AccessRule.ofText ownedMapping 0 capturedRule = .ok rules ∧
      r ∈ rules ∧ r.condition? = some condition ∧
      (separate id ["x"] condition).1.render =
        "EXISTS (SELECT x0 FROM Document x0 WHERE x0.reviewer = x0.owner)" ∧
      ¬ ∃ i j, Corresponds Link.keeping i j [] condition (separate id ["x"] condition).1 := by
  have hfound : (AccessRule.ofText ownedMapping 0 capturedRule).toOption.any fun rules =>
      rules.head?.any fun r => r.condition?.any fun condition =>
        (separate id ["x"] condition).1.render ==
          "EXISTS (SELECT x0 FROM Document x0 WHERE x0.reviewer = x0.owner)" &&
        (Query.Scope.check (some ownedMapping.model) [] condition).toOption.isNone &&
        (Query.Scope.check (some ownedMapping.model) []
          (separate id ["x"] condition).1).toOption.isSome := by
    decide +kernel
  obtain ⟨rules, hrules, hfound⟩ := Query.Scope.ok_of_any hfound
  obtain ⟨r, hr, hfound⟩ := (Option.any_eq_true _ _).mp hfound
  obtain ⟨condition, hcondition, hfound⟩ := (Option.any_eq_true _ _).mp hfound
  simp only [Bool.and_eq_true] at hfound
  obtain ⟨⟨htext, hopen⟩, hclosed⟩ := hfound
  refine ⟨rules, r, condition, hrules, List.mem_of_head? hr, hcondition, beq_iff_eq.mp htext, ?_⟩
  rintro ⟨i, j, hsame⟩
  -- With no alias in scope the one is rejected and the other is not.
  have hscopes : ScopesAgree False ownedMapping Link.keeping [] [] [] := by
    intro n x ws href
    exact Or.inl ⟨(Refers.nil_iff.mp href).2, rfl, rfl⟩
  have hagree := hsame.check_agree hscopes
  cases hleft : Query.Scope.check (some ownedMapping.model) [] condition with
  | ok ss =>
      rw [hleft] at hopen
      cases hopen
  | error e =>
      cases hright : Query.Scope.check (some ownedMapping.model) []
          (separate id ["x"] condition).1 with
      | ok ss =>
          rw [hleft, hright] at hagree
          exact hagree.1
      | error e =>
          rw [hright] at hclosed
          cases hclosed

end Restriction

end RowGuard
