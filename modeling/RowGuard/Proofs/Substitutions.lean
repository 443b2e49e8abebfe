import RowGuard.Proofs.Decisions

/-!
# Putting a path for the subject

Putting a path for a name changes no meaning as long as nothing inside declares
the root of the path.  A subselect that declares the name itself is left alone,
and rightly so if its joins mean that alias by the name wherever they use it.
-/

namespace RowGuard

open Query (Label Phrase)
open Query.Phrase
open Restriction

/-! ## Links -/

/-- Only one name is free, and it stands for itself. -/
def Link.renaming (a : String) : Link where
  free n x ws := n = a ∧ x = a ∧ ws = []
  leaf l m := l = m
  roles _ := False
  exact := False

/-- Only one name is free, and a path stands for it. -/
def Link.placing (a x : String) (ps : List String) : Link where
  free n y ws := n = a ∧ y = x ∧ ws = ps
  leaf l m := l = m
  roles _ := False
  exact := False

/-- The second link has a path for a name where the first one, in which no name stands for
more than a name, has the name itself. -/
structure Link.Places (k k' : Link) (a x : String) (ps : List String) : Prop where
  leaf : ∀ l m, k.leaf l m → k'.leaf l m
  roles : ∀ names, ¬ k.roles names
  exact : ¬ k'.exact
  plain : ∀ n y ws, k.free n y ws → ws = []
  put : ∀ n, k.free n a [] → k'.free n x ps
  other : ∀ n y, y ≠ a → k.free n y [] → k'.free n y []

theorem Link.places_renaming (a x : String) (ps : List String) :
    Link.Places (Link.renaming a) (Link.placing a x ps) a x ps where
  leaf _ _ h := h
  roles _ := id
  exact := id
  plain _ _ _ h := h.2.2
  put _ h := ⟨h.1, rfl, rfl⟩
  other _ _ hne h := absurd h.2.1 hne

/-- Whatever the one link allows under aliases of a kind, the other one allows as well. -/
structure Link.Allows (k k' : Link) (S : Pairs → Prop) : Prop where
  leaf : ∀ l m, k.leaf l m → k'.leaf l m
  roles : ∀ names, k.roles names → k'.roles names
  exact : k'.exact → k.exact
  append : ∀ P ρ, S ρ → S (P ++ ρ)
  refers : ∀ ρ n x ws, S ρ → Refers k ρ n x ws → Refers k' ρ n x ws

section Relinking

variable {k k' : Link} {S : Pairs → Prop}

theorem JoinsCorrespond.relink (hk : Link.Allows k k' S) {ρ P D E : Pairs} (hρ : S ρ)
    {js ks : List Phrase} (h : JoinsCorrespond k ρ P D js ks E) :
    JoinsCorrespond k' ρ P D js ks E := by
  have hrefers : ∀ {Q : Pairs} {n x : String} {ws : List String},
      Refers k (Q ++ ρ) n x ws → Refers k' (Q ++ ρ) n x ws :=
    hk.refers _ _ _ _ (hk.append _ _ hρ)
  induction h with
  | nil => exact .nil _
  | bare outer fetch s s' hp hq href _ ih =>
      exact .bare outer fetch s s' hp hq (hrefers href) ih
  | named outer fetch s s' r r' hp hq href href' ha hb hrepeats _ ih =>
      exact .named outer fetch s s' r r' hp hq (hrefers href) (hrefers href') ha hb hrepeats ih

mutual

/-- Phrases that correspond by one link do so by any that allows as much. -/
theorem Corresponds.relink (hk : Link.Allows k k' S) : ∀ {i j : Nat} {ρ : Pairs} {t u : Phrase},
    Corresponds k i j ρ t u → S ρ → Corresponds k' i j ρ t u
  | _, _, _, _, _, .reference ht hu href, hρ => .reference ht hu (hk.refers _ _ _ _ hρ href)
  | _, _, _, _, _, .leaf s s' hl hm h, _ => .leaf s s' hl hm (hk.leaf _ _ h)
  | _, _, _, _, _, .roles s s' r h hnames hne, hρ =>
      .roles s s' r (h.relink hk hρ) (hk.roles _ hnames) hne
  | _, _, _, _, _, .subselect distinct s₁ s₂ s₃ s₁' s₂' s₃' hranges hjoins hselect hrest hfinal
      hsame, hρ =>
      .subselect distinct s₁ s₂ s₃ s₁' s₂' s₃' hranges (hjoins.relink hk hρ)
        (hselect.relink hk (hk.append _ _ hρ)) (hrest.relink hk (hk.append _ _ hρ)) hfinal
        fun h => hsame (hk.exact h)
  | _, _, _, _, _, .compound s s' hcompound h, hρ => .compound s s' hcompound (h.relink hk hρ)

theorem AllCorrespond.relink (hk : Link.Allows k k' S) :
    ∀ {i j : Nat} {ρ : Pairs} {ts us : List Phrase},
      AllCorrespond k i j ρ ts us → S ρ → AllCorrespond k' i j ρ ts us
  | _, _, _, _, _, .nil, _ => .nil
  | _, _, _, _, _, .cons h hs, hρ => .cons (h.relink hk hρ) (hs.relink hk hρ)

end

end Relinking

/-! ## References -/

variable {k k' : Link} {a x : String} {ps : List String} {ρ : Pairs}

theorem Refers.eq_nil (hk : Link.Places k k' a x ps) {n y : String} {vs : List String}
    (h : Refers k ρ n y vs) : vs = [] := by
  cases h with
  | bound => rfl
  | free _ hfree => exact hk.plain _ _ _ hfree

/-- A name that is not the one in question refers to the same by both links. -/
theorem Refers.placing_of_ne (hk : Link.Places k k' a x ps) {n y : String} {vs : List String}
    (hy : y ∈ ρ.map Prod.snd ∨ y ≠ a) (h : Refers k ρ n y vs) : Refers k' ρ n y vs := by
  cases h with
  | bound h => exact .bound h
  | free hnone hfree =>
      obtain rfl := hk.plain _ _ _ hfree
      refine .free hnone (hk.other _ _ (hy.resolve_left fun hmem => ?_) hfree)
      obtain ⟨p, hp, rfl⟩ := List.mem_map.mp hmem
      have htouched := List.find?_eq_none.mp hnone p hp
      simp [touches] at htouched

/-- Where the name is declared, nothing refers to the free one. -/
theorem Refers.placing_of_mem (hk : Link.Places k k' a x ps) {n y : String} {vs : List String}
    (ha : a ∈ ρ.map Prod.snd) (h : Refers k ρ n y vs) : Refers k' ρ n y vs := by
  by_cases hy : y = a
  · exact h.placing_of_ne hk (Or.inl (hy ▸ ha))
  · exact h.placing_of_ne hk (Or.inr hy)

/-- Where it is not declared, the path is put for it. -/
theorem Refers.placing_of_not_mem (hk : Link.Places k k' a x ps) {n y : String}
    (ha : a ∉ ρ.map Prod.snd) (hx : x ∉ ρ.map Prod.snd) {vs : List String}
    (h : Refers k ρ n y vs) :
    Refers k' ρ n (if y = a then x else y) (if y = a then ps else []) := by
  obtain rfl := h.eq_nil hk
  by_cases hya : y = a
  · subst hya
    rw [if_pos rfl, if_pos rfl]
    cases h with
    | bound h => exact absurd (List.mem_map_of_mem (List.mem_of_find?_eq_some h)) ha
    | free hnone hfree =>
        refine .free (List.find?_eq_none.mpr fun p hp => ?_) (hk.put _ hfree)
        have htouched := List.find?_eq_none.mp hnone p hp
        simp only [touches, Bool.or_eq_true, beq_iff_eq, not_or] at htouched ⊢
        exact ⟨htouched.1, fun hpx => hx (hpx ▸ List.mem_map_of_mem hp)⟩
  · rw [if_neg hya, if_neg hya]
    exact h.placing_of_ne hk (Or.inr hya)

theorem substitute_of_not_path (r : Phrase) {l : Label} (hl : l ≠ .subselect) (hpath : l ≠ .path)
    (hname : l ≠ .identifier a) (ts : List Phrase) (s : Source.Span) :
    substitute a r (.node l ts s) = .node l (substituteAll a r ts) s := by
  rw [substitute]
  simp [hl, hpath, hname]

theorem Query.Phrase.AreSegments.substituteAll_eq (r : Phrase) {segments : List Phrase}
    {ws : List String} (h : AreSegments segments ws) : substituteAll a r segments = segments := by
  induction h with
  | nil => rfl
  | cons span hword _ ih =>
      rw [substituteAll, ih, substitute_of_not_path r (by simp) (by simp) (by simp)]
      rfl

/-- The path goes on behind what is put for its root. -/
theorem isReference_graft {r : Phrase} {segments : List Phrase} {w : String} {ws : List String}
    (hr : r.IsReference x ps) (hsegments : AreSegments segments (w :: ws)) (s : Source.Span) :
    IsReference (.node .path (graft r ++ segments) s) x (ps ++ w :: ws) := by
  cases hr with
  | name span hword => exact .path span s hword hsegments
  | @path v more vs segments' rootSpan span hword hmore =>
      exact .path rootSpan s hword (hmore.append hsegments)

/-- What becomes of a reference, whether it starts at the name or not. -/
theorem Query.Phrase.IsReference.substitute {r u : Phrase} (hr : r.IsReference x ps) {y : String}
    {ws : List String} (hu : u.IsReference y ws) :
    IsReference (Restriction.substitute a r u) (if y = a then x else y)
      ((if y = a then ps else []) ++ ws) := by
  cases hu with
  | name span hword =>
      rw [Restriction.substitute]
      by_cases hy : y = a
      · subst hy
        simpa using hr
      · simpa [hy, substituteAll] using IsReference.name span hword
  | @path _ w segments ws rootSpan span hword hsegments =>
      rw [Restriction.substitute]
      by_cases hy : y = a
      · subst hy
        simpa [rootAlias?] using isReference_graft hr hsegments span
      · have hroot : Restriction.substitute a r (.node (.identifier y) [] rootSpan) =
            .node (.identifier y) [] rootSpan := by
          rw [Restriction.substitute]
          simp [hy, substituteAll]
        simpa [rootAlias?, hy, substituteAll, hroot, hsegments.substituteAll_eq] using
          IsReference.path rootSpan span hword hsegments

/-! ## From clauses -/

/-- The from items of a statement. -/
def fromItems (t : Phrase) : List Phrase :=
  ((t.findChild? (· = .fromClause)).map Phrase.children).getD []

/-- Subselects that declare a name use it in their joins for nothing but the alias. -/
def DeclaredInOrder (a : String) (t : Phrase) : Prop :=
  ∀ u ∈ t.nodes, u.label = .subselect → a ∈ u.declaredAliases →
    JoinsWithin (· ≠ a) (rangeAliases (fromItems u)) (joinsOf (fromItems u))

/-- No subselect declares a name. -/
def NotDeclared (x : String) (t : Phrase) : Prop :=
  ∀ u ∈ t.nodes, u.label = .subselect → x ∉ u.declaredAliases

theorem DeclaredInOrder.child {l : Label} {ts : List Phrase} {s : Source.Span}
    (h : DeclaredInOrder a (.node l ts s)) : ∀ t ∈ ts, DeclaredInOrder a t :=
  fun _ ht u hu => h u (mem_nodes_of_child ht hu)

theorem NotDeclared.child {l : Label} {ts : List Phrase} {s : Source.Span}
    (h : NotDeclared x (.node l ts s)) : ∀ t ∈ ts, NotDeclared x t :=
  fun _ ht u hu => h u (mem_nodes_of_child ht hu)

/-- Joins of a subselect that does not declare the name. -/
theorem JoinsCorrespond.substitute (hk : Link.Places k k' a x ps) {r : Phrase}
    (hr : r.IsReference x ps) {P D E : Pairs} {js ks : List Phrase}
    (h : JoinsCorrespond k ρ P D js ks E) (ha : a ∉ (E ++ ρ).map Prod.snd)
    (hx : x ∉ (E ++ ρ).map Prod.snd)
    (haP : a ∉ (P ++ ρ).map Prod.snd) (hxP : x ∉ (P ++ ρ).map Prod.snd) :
    JoinsCorrespond k' ρ P D js (substituteAll a r ks) E := by
  have hbefore : ∀ {D E : Pairs} {js ks : List Phrase} {z : String},
      JoinsCorrespond k ρ P D js ks E → z ∉ (E ++ ρ).map Prod.snd →
        z ∉ (D ++ ρ).map Prod.snd := by
    intro D E js ks z h hz hmem
    refine hz ?_
    rw [List.map_append, h.map_pairs.2, List.append_assoc, ← List.map_append]
    exact List.mem_append_right _ hmem
  have hjoin : ∀ (outer fetch : Bool) (cs : List Phrase) (s : Source.Span),
      Restriction.substitute a r (.node (.join outer fetch) cs s) =
        .node (.join outer fetch) (substituteAll a r cs) s := fun outer fetch cs s =>
    substitute_of_not_path r (by simp) (by simp) (by simp) cs s
  induction h with
  | nil => exact .nil _
  | bare outer fetch s s' hp hq href hrest ih =>
      obtain rfl := href.eq_nil hk
      have hplaced := href.placing_of_not_mem hk (hbefore hrest ha) (hbefore hrest hx)
      simp only [substituteAll, hjoin]
      exact .bare outer fetch s s' hp (hr.substitute hq) hplaced (ih ha hx)
  | @named D E p q js ks n y b b' ws vs outer fetch s s' t t' hp hq href href' hb hb' hrepeats
      hrest ih =>
      obtain rfl := href.eq_nil hk
      have hstep := hbefore hrest ha
      have hplaced := href.placing_of_not_mem hk
        (fun hmem => hstep (List.mem_cons_of_mem _ hmem))
        (fun hmem => hbefore hrest hx (List.mem_cons_of_mem _ hmem))
      have hplaced' := href'.placing_of_not_mem hk haP hxP
      have hba : b' ≠ a := by
        rintro rfl
        exact hstep (by simp)
      have hname : Restriction.substitute a r (.node (.identifier b') [] t') =
          .node (.identifier b') [] t' := by
        rw [Restriction.substitute]
        simp [hba, substituteAll]
      simp only [substituteAll, hjoin, hname]
      exact .named outer fetch s s' t t' hp (hr.substitute hq) hplaced hplaced' hb hb' hrepeats
        (ih ha hx)

/-- Joins of a subselect that declares the name and uses it for nothing else. -/
theorem JoinsCorrespond.placing (hk : Link.Places k k' a x ps) {P D E : Pairs}
    {js ks : List Phrase} {names : List String} (h : JoinsCorrespond k ρ P D js ks E)
    (hks : JoinsWithin (· ≠ a) names ks) (hnames : ∀ n ∈ names, n ∈ D.map Prod.snd)
    (haP : a ∈ P.map Prod.snd) : JoinsCorrespond k' ρ P D js ks E := by
  have hdeclared : ∀ {Q : Pairs} {y : String}, y ∈ Q.map Prod.snd → y ∈ (Q ++ ρ).map Prod.snd :=
    fun hy => by
      rw [List.map_append]
      exact List.mem_append_left _ hy
  induction h generalizing names with
  | nil => exact .nil _
  | @bare D E p q js ks n y ws vs outer fetch s s' hp hq href hrest ih =>
      obtain rfl := href.eq_nil hk
      cases hks with
      | bare _ _ _ hq' hy hks =>
          obtain ⟨rfl, -⟩ := hq.eq_and_eq hq'
          exact .bare outer fetch s s' hp hq
            (href.placing_of_ne hk (hy.imp_left fun h => hdeclared (hnames _ h))) (ih hks hnames)
  | @named D E p q js ks n y b b' ws vs outer fetch s s' t t' hp hq href href' hb hb' hrepeats
      hrest ih =>
      obtain rfl := href.eq_nil hk
      cases hks with
      | named _ _ _ _ hq' hy _ hks =>
          obtain ⟨rfl, -⟩ := hq.eq_and_eq hq'
          refine .named outer fetch s s' t t' hp hq
            (href.placing_of_ne hk (hy.imp_left fun h => hdeclared (hnames _ h)))
            (href'.placing_of_mem hk (hdeclared haP)) hb hb' hrepeats (ih hks fun n hn => ?_)
          rcases List.mem_cons.mp hn with rfl | hn
          · exact List.mem_cons_self
          · exact List.mem_cons_of_mem _ (hnames n hn)

theorem RangesCorrespond.substitute {r : Phrase} {D E : Pairs} {items items' : List Phrase}
    (h : RangesCorrespond D items items' E) (ha : a ∉ E.map Prod.snd) :
    RangesCorrespond D items (substituteAll a r items') E ∧
      joinsOf (substituteAll a r items') = substituteAll a r (joinsOf items') := by
  have happend : ∀ ts us : List Phrase,
      substituteAll a r (ts ++ us) = substituteAll a r ts ++ substituteAll a r us := by
    intro ts us
    induction ts with
    | nil => rfl
    | cons t ts ih => rw [List.cons_append, substituteAll, substituteAll, ih, List.cons_append]
  induction h with
  | nil => exact ⟨.nil _, rfl⟩
  | @cons D E items items' js ks b b' entity s₁ s₂ s₃ s₁' s₂' s₃' hb hb' hrepeats hrest ih =>
      obtain ⟨hitems, hjoins⟩ := ih ha
      have hba : b' ≠ a := by
        rintro rfl
        refine ha ?_
        rw [hrest.map_pairs.2]
        simp
      have hentity : Restriction.substitute a r (.node (.entityName entity) [] s₁') =
          .node (.entityName entity) [] s₁' :=
        substitute_of_not_path r (by simp) (by simp) (by simp) [] s₁'
      have hname : Restriction.substitute a r (.node (.identifier b') [] s₂') =
          .node (.identifier b') [] s₂' := by
        rw [Restriction.substitute]
        simp [hba, substituteAll]
      have hitem : Restriction.substitute a r (.node .fromItem (.node (.entityName entity) [] s₁'
            :: .node (.identifier b') [] s₂' :: ks) s₃') =
          .node .fromItem (.node (.entityName entity) [] s₁' :: .node (.identifier b') [] s₂'
            :: substituteAll a r ks) s₃' := by
        rw [substitute_of_not_path r (by simp) (by simp) (by simp), substituteAll, substituteAll,
          hentity, hname]
      rw [substituteAll, hitem]
      refine ⟨.cons entity s₁ s₂ s₃ s₁' s₂' s₃' hb hb' hrepeats hitems, ?_⟩
      simp only [joinsOf, List.flatMap_cons, Phrase.children, List.drop_succ_cons, List.drop_zero,
        happend]
      exact congrArg _ hjoins

theorem Link.Places.allows (hk : Link.Places k k' a x ps) :
    Link.Allows k k' (a ∈ ·.map Prod.snd) where
  leaf := hk.leaf
  roles names h := absurd h (hk.roles names)
  exact h := absurd h hk.exact
  append P ρ h := by
    rw [List.map_append]
    exact List.mem_append_right _ h
  refers _ _ _ _ hρ h := h.placing_of_mem hk hρ

/-! ## Subselects -/

section Subselects

variable {r : Phrase} {i j : Nat} {D P : Pairs} {cs ds items items' rest rest' : List Phrase}

theorem mem_declaredAliases_iff {k : Link} (ds rest' : List Phrase)
    (hranges : RangesCorrespond [] items items' D)
    (hjoins : JoinsCorrespond k ρ P D (joinsOf items) (joinsOf items') P) (name : String)
    (distinct : Bool) (s₁ s₂ s₃ : Source.Span) :
    name ∈ declaredAliases (.node .subselect (.node (.selectClause distinct) ds s₁
      :: .node .fromClause items' s₂ :: rest') s₃) ↔ name ∈ P.map Prod.snd := by
  rw [declaredAliases_subselect, (pairs_eq_declaredAliases hranges hjoins).2, List.mem_reverse]

/-- A subselect that declares the name is left alone. -/
theorem substitute_of_declares {t : Phrase} (hlabel : t.label = .subselect)
    (ha : a ∈ t.declaredAliases) : substitute a r t = t := by
  obtain ⟨l, ts, s⟩ := t
  rw [substitute, if_pos ⟨hlabel, List.contains_iff_mem.mpr ha⟩]

theorem substitute_subselect {distinct : Bool} {s₁ s₂ s₃ : Source.Span}
    (ha : a ∉ declaredAliases (.node .subselect (.node (.selectClause distinct) ds s₁
      :: .node .fromClause items' s₂ :: rest') s₃)) :
    substitute a r (.node .subselect (.node (.selectClause distinct) ds s₁
        :: .node .fromClause items' s₂ :: rest') s₃) =
      .node .subselect (.node (.selectClause distinct) (substituteAll a r ds) s₁
        :: .node .fromClause (substituteAll a r items') s₂ :: substituteAll a r rest') s₃ := by
  rw [substitute, if_neg fun h => ha (List.contains_iff_mem.mp h.2), if_neg (by simp),
    if_neg (by simp), substituteAll, substituteAll,
    substitute_of_not_path r (by simp) (by simp) (by simp),
    substitute_of_not_path r (by simp) (by simp) (by simp)]

end Subselects

/-! ## Phrases -/

mutual

/-- Putting a path for a free name keeps the correspondence. -/
theorem Corresponds.substitute (hk : Link.Places k k' a x ps) {r : Phrase}
    (hr : r.IsReference x ps) : ∀ {i j : Nat} {ρ : Pairs} {t u : Phrase},
    Corresponds k i j ρ t u → a ∉ ρ.map Prod.snd → x ∉ ρ.map Prod.snd →
    NotDeclared x u → DeclaredInOrder a u →
      Corresponds k' i j ρ t (Restriction.substitute a r u)
  | _, _, _, _, _, .reference ht hu href, ha, hx, _, _ => by
      obtain rfl := href.eq_nil hk
      exact .reference ht (hr.substitute hu) (href.placing_of_not_mem hk ha hx)
  | _, _, _, _, _, .leaf (m := m) s s' hl hm h, _, _, _, _ => by
      have hself : Restriction.substitute a r (.node m [] s') = .node m [] s' := by
        rw [substitute_of_not_path r] <;> first | rfl | (rintro rfl; cases hm)
      rw [hself]
      exact .leaf s s' hl hm (hk.leaf _ _ h)
  | _, _, _, _, _, .roles _ _ _ _ hnames _, _, _, _, _ => absurd hnames (hk.roles _)
  | i + 1, j + 1, ρ, _, _, @Corresponds.subselect _ _ _ _ D P _ ds _ items' _ rest' distinct s₁ s₂ s₃
      s₁' s₂' s₃' hranges hjoins hselect hrest hfinal _,
      ha, hx, hxu, hau => by
      have hmem := mem_declaredAliases_iff ds rest' hranges hjoins
      have hxP : x ∉ (P ++ ρ).map Prod.snd := by
        rw [List.map_append, List.mem_append, not_or, ← hmem x distinct s₁' s₂' s₃']
        exact ⟨hxu _ (mem_nodes_self _) rfl, hx⟩
      by_cases hdeclared : a ∈ P.map Prod.snd
      · -- The subselect means its own alias by the name, and so do all references in it.
        have haP : a ∈ (P ++ ρ).map Prod.snd := by
          rw [List.map_append]
          exact List.mem_append_left _ hdeclared
        have hdeclares := (hmem a distinct s₁' s₂' s₃').mpr hdeclared
        have hjoins' : JoinsCorrespond k' ρ P D (joinsOf _) (joinsOf items') P :=
          hjoins.placing hk (hau _ (mem_nodes_self _) rfl hdeclares) (fun n hn => by
            rw [hranges.map_pairs.2]
            simpa [fromItems, findChild?, Phrase.children, Phrase.label, rangeAliases] using hn)
          hdeclared
        rw [substitute_of_declares rfl hdeclares]
        exact .subselect distinct s₁ s₂ s₃ s₁' s₂' s₃' hranges hjoins'
          (hselect.relink hk.allows haP) (hrest.relink hk.allows haP) hfinal
          fun h => absurd h hk.exact
      · have haP : a ∉ (P ++ ρ).map Prod.snd := by
          rw [List.map_append, List.mem_append, not_or]
          exact ⟨hdeclared, ha⟩
        have haD : a ∉ D.map Prod.snd := by
          rw [hjoins.map_pairs.2, List.mem_append, not_or] at hdeclared
          exact hdeclared.2
        obtain ⟨hranges', hjoinsOf⟩ := hranges.substitute (r := r) haD
        have hjoins' := hjoins.substitute hk hr haP hxP haP hxP
        rw [← hjoinsOf] at hjoins'
        have hpart : ∀ c ∈ Phrase.node (.selectClause distinct) ds s₁'
            :: .node .fromClause items' s₂' :: rest', NotDeclared x c ∧ DeclaredInOrder a c :=
          fun c hc => ⟨hxu.child c hc, hau.child c hc⟩
        have hclause := hpart (.node (.selectClause distinct) ds s₁') (by simp)
        rw [substitute_subselect fun h => hdeclared ((hmem a distinct s₁' s₂' s₃').mp h)]
        exact .subselect distinct s₁ s₂ s₃ s₁' s₂' s₃' hranges' hjoins'
          (hselect.substituteAll hk hr haP hxP hclause.1.child hclause.2.child)
          (hrest.substituteAll hk hr haP hxP (fun c hc => (hpart c (by simp [hc])).1)
            fun c hc => (hpart c (by simp [hc])).2) hfinal fun h => absurd h hk.exact
  | _, _, _, _, _, .compound (l := l) s s' hcompound h, ha, hx, hxu, hau => by
      have hnode := substitute_of_not_path (a := a) r (l := l) (by rintro rfl; cases hcompound)
        (by rintro rfl; cases hcompound) (by rintro rfl; cases hcompound)
      rw [hnode]
      exact .compound s s' hcompound (h.substituteAll hk hr ha hx hxu.child hau.child)

theorem AllCorrespond.substituteAll (hk : Link.Places k k' a x ps) {r : Phrase}
    (hr : r.IsReference x ps) : ∀ {i j : Nat} {ρ : Pairs} {ts us : List Phrase},
    AllCorrespond k i j ρ ts us → a ∉ ρ.map Prod.snd → x ∉ ρ.map Prod.snd →
    (∀ u ∈ us, NotDeclared x u) → (∀ u ∈ us, DeclaredInOrder a u) →
      AllCorrespond k' i j ρ ts (Restriction.substituteAll a r us)
  | _, _, _, _, _, .nil, _, _, _, _ => .nil
  | _, _, _, _, _, .cons h hs, ha, hx, hxu, hau =>
      .cons (h.substitute hk hr ha hx (hxu _ (by simp)) (hau _ (by simp)))
        (hs.substituteAll hk hr ha hx (fun u hu => hxu u (List.mem_cons_of_mem _ hu))
          fun u hu => hau u (List.mem_cons_of_mem _ hu))

end

end RowGuard
