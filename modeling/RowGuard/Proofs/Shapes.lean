import RowGuard.Proofs.Evaluation

/-!
# Well-formed phrases

Reading makes phrases of a certain shape: names and paths are made of words,
ranges and joins stand where a subselect declares them, and everything else is
made of its parts.  A phrase of this shape corresponds to itself, whatever the
names in it stand for, and checking it tells which names that are.
-/

namespace RowGuard

open Query (AliasDefinition Label Phrase StatementKind TypeModel)
open Query.Phrase
open Query.Scope

namespace Query.Phrase

/-- A range over a type with its joins. -/
inductive IsRange : Phrase → Prop
  | intro (a entity : String) (js : List Phrase) (s₁ s₂ s₃ : Source.Span) :
      IsWord a → IsRange (.node .fromItem (.node (.entityName entity) [] s₁
        :: .node (.identifier a) [] s₂ :: js) s₃)

/-- Joins whose paths start at names of a kind or at aliases declared before them. -/
inductive JoinsWithin (P : String → Prop) : List String → List Phrase → Prop
  | nil (D : List String) : JoinsWithin P D []
  | bare {D : List String} {p : Phrase} {js : List Phrase} {n : String} {ws : List String}
      (outer fetch : Bool) (s : Source.Span) : p.IsReference n ws → n ∈ D ∨ P n →
      JoinsWithin P D js → JoinsWithin P D (.node (.join outer fetch) [p] s :: js)
  | named {D : List String} {p : Phrase} {js : List Phrase} {n a : String} {ws : List String}
      (outer fetch : Bool) (s r : Source.Span) : p.IsReference n ws → n ∈ D ∨ P n →
      IsWord a → JoinsWithin P (a :: D) js →
        JoinsWithin P D (.node (.join outer fetch) [p, .node (.identifier a) [] r] s :: js)

/-- The aliases that some from items declare. -/
def rangeAliases (items : List Phrase) : List String := items.filterMap declaredAlias?

def itemAliases (items : List Phrase) : List String :=
  rangeAliases items ++ (joinsOf items).filterMap declaredAlias?

theorem rangeAliases_append (items more : List Phrase) :
    rangeAliases (items ++ more) = rangeAliases items ++ rangeAliases more :=
  List.filterMap_append

/-- A phrase of the shape that reading gives, whose free names are of a kind. -/
inductive Within : (String → Prop) → Phrase → Prop
  | reference {P : String → Prop} {t : Phrase} {n : String} {ws : List String} :
      t.IsReference n ws → P n → Within P t
  | leaf {P : String → Prop} {l : Label} (s : Source.Span) : l.isLeaf → Within P (.node l [] s)
  | subselect {P : String → Prop} {cs items rest : List Phrase} (distinct : Bool)
      (s₁ s₂ s₃ : Source.Span) : (∀ r ∈ items, r.IsRange) →
      JoinsWithin P (rangeAliases items) (joinsOf items) →
      (∀ t ∈ cs, Within (fun n => n ∈ itemAliases items ∨ P n) t) →
      (∀ t ∈ rest, Within (fun n => n ∈ itemAliases items ∨ P n) t) →
      (∀ t ∈ rest, t.label.isFinalClause) →
        Within P (.node .subselect (.node (.selectClause distinct) cs s₁
          :: .node .fromClause items s₂ :: rest) s₃)
  | compound {P : String → Prop} {l : Label} {ts : List Phrase} (s : Source.Span) :
      l.isCompound → (∀ t ∈ ts, Within P t) → Within P (.node l ts s)

/-- A phrase of the shape that reading gives, whatever its names are. -/
abbrev WellFormed (t : Phrase) : Prop := Within (fun _ => True) t

/-- A join by itself. -/
inductive IsJoin : Phrase → Prop
  | bare {p : Phrase} {n : String} {ws : List String} (outer fetch : Bool) (s : Source.Span) :
      p.IsReference n ws → IsJoin (.node (.join outer fetch) [p] s)
  | named {p : Phrase} {n a : String} {ws : List String} (outer fetch : Bool)
      (s r : Source.Span) : p.IsReference n ws → IsWord a →
        IsJoin (.node (.join outer fetch) [p, .node (.identifier a) [] r] s)

theorem joinsWithin_of_isJoin {js : List Phrase} (h : ∀ j ∈ js, j.IsJoin)
    (names : List String) : JoinsWithin (fun _ => True) names js := by
  induction js generalizing names with
  | nil => exact .nil names
  | cons j js ih =>
      have hrest := ih fun k hk => h k (List.mem_cons_of_mem j hk)
      cases h j (by simp) with
      | bare outer fetch s hp => exact .bare outer fetch s hp (Or.inr trivial) (hrest names)
      | named outer fetch s r hp ha =>
          exact .named outer fetch s r hp (Or.inr trivial) ha (hrest _)

theorem JoinsWithin.mono {P Q : String → Prop} {D : List String} {js : List Phrase}
    (h : JoinsWithin P D js) (hPQ : ∀ n, P n → Q n) : JoinsWithin Q D js := by
  induction h with
  | nil => exact .nil _
  | bare outer fetch s hp hn _ ih => exact .bare outer fetch s hp (hn.imp_right (hPQ _)) ih
  | named outer fetch s r hp hn ha _ ih =>
      exact .named outer fetch s r hp (hn.imp_right (hPQ _)) ha ih

theorem Within.mono {P Q : String → Prop} {t : Phrase} (h : Within P t)
    (hPQ : ∀ n, P n → Q n) : Within Q t := by
  induction h generalizing Q with
  | reference ht hn => exact .reference ht (hPQ _ hn)
  | leaf s hl => exact .leaf s hl
  | subselect distinct s₁ s₂ s₃ hitems hjoins _ _ hfinal hselect hrest =>
      exact .subselect distinct s₁ s₂ s₃ hitems (hjoins.mono hPQ)
        (fun t ht => hselect t ht fun n => Or.imp_right (hPQ n))
        (fun t ht => hrest t ht fun n => Or.imp_right (hPQ n)) hfinal
  | compound s hcompound _ ih => exact .compound s hcompound fun t ht => ih t ht hPQ

end Query.Phrase

/-! ## Nodes -/

theorem Query.Phrase.mem_nodes_self (t : Phrase) : t ∈ t.nodes := by
  obtain ⟨l, cs, s⟩ := t
  simp [nodes, visit]

theorem mem_visitAll {enter : Phrase → Bool} {ts : List Phrase} {u : Phrase} :
    u ∈ visitAll enter ts ↔ ∃ t ∈ ts, u ∈ visit enter t := by
  induction ts with
  | nil => simp [visitAll]
  | cons t ts ih => simp [visitAll, ih]

theorem Query.Phrase.mem_nodes_node {l : Label} {cs : List Phrase} {s : Source.Span} {u : Phrase} :
    u ∈ (Phrase.node l cs s).nodes ↔ u = .node l cs s ∨ ∃ t ∈ cs, u ∈ t.nodes := by
  simp only [nodes, visit, if_true, List.mem_cons]
  exact or_congr_right mem_visitAll

theorem Query.Phrase.mem_nodes_of_child {l : Label} {cs : List Phrase} {s : Source.Span}
    {t u : Phrase} (ht : t ∈ cs) (hu : u ∈ t.nodes) : u ∈ (Phrase.node l cs s).nodes :=
  mem_nodes_node.mpr (Or.inr ⟨t, ht, hu⟩)

/-! ## Correspondence with itself -/

/-- Pairs that give each name to itself. -/
def Diagonal (ρ : Pairs) : Prop := ∀ p ∈ ρ, p.1 = p.2

theorem Diagonal.append {ρ σ : Pairs} (h : Diagonal ρ) (h' : Diagonal σ) :
    Diagonal (ρ ++ σ) := by
  intro p hp
  rcases List.mem_append.mp hp with hp | hp
  · exact h p hp
  · exact h' p hp

def diagonal (names : List String) : Pairs := names.map fun n => (n, n)

theorem diagonal_diagonal (names : List String) : Diagonal (diagonal names) := by
  intro p hp
  obtain ⟨n, -, rfl⟩ := List.mem_map.mp hp
  rfl

theorem diagonal_append (names more : List String) :
    diagonal (names ++ more) = diagonal names ++ diagonal more := List.map_append

theorem mem_map_fst_diagonal {names : List String} {n : String} :
    n ∈ (diagonal names).map Prod.fst ↔ n ∈ names := by
  simp [diagonal]

theorem refers_self {k : Link} {ρ : Pairs} {n : String} (hρ : Diagonal ρ)
    (h : n ∈ ρ.map Prod.fst ∨ k.free n n []) : Refers k ρ n n [] := by
  cases hfind : ρ.find? (touches n n) with
  | none =>
      refine .free hfind (h.resolve_left fun hmem => ?_)
      obtain ⟨p, hp, rfl⟩ := List.mem_map.mp hmem
      have hnone := List.find?_eq_none.mp hfind p hp
      simp [touches] at hnone
  | some p =>
      obtain ⟨a, b⟩ := p
      have hab : a = b := hρ _ (List.mem_of_find?_eq_some hfind)
      have htouched := List.find?_some hfind
      subst hab
      rw [touches, Bool.or_self, beq_iff_eq] at htouched
      exact .bound (htouched ▸ hfind)

namespace Query.Phrase

theorem repeatsAlike_diagonal {D : Pairs} (hD : Diagonal D) (a : String) :
    RepeatsAlike D a a := by
  rw [RepeatsAlike, List.map_congr_left hD]

theorem JoinsWithin.corresponds {k : Link} {P : String → Prop} {names : List String}
    {js : List Phrase} {ρ D E : Pairs} (h : JoinsWithin P names js) (hρ : Diagonal ρ)
    (hD : Diagonal D) (hE : Diagonal E) (hnames : ∀ n ∈ names, n ∈ D.map Prod.fst)
    (hall : ∀ n, n ∈ js.filterMap declaredAlias? ∨ n ∈ names → n ∈ E.map Prod.fst)
    (hfree : ∀ n, P n → n ∈ ρ.map Prod.fst ∨ k.free n n []) :
    JoinsCorrespond k ρ E D js js (diagonal (js.filterMap declaredAlias?).reverse ++ D) := by
  have hself : ∀ {F : Pairs} {n : String}, Diagonal F → n ∈ F.map Prod.fst ∨ P n →
      Refers k (F ++ ρ) n n [] := by
    intro F n hF hn
    refine refers_self (hF.append hρ) ?_
    rw [List.map_append, List.mem_append, or_assoc]
    exact hn.imp_right (hfree n)
  induction h generalizing D with
  | nil names => exact .nil _
  | bare outer fetch s hp hn _ ih =>
      exact .bare outer fetch s s hp hp (hself hD (hn.imp_left (hnames _))) (ih hD hnames hall)
  | @named names p js n a ws outer fetch s r hp hn ha _ ih =>
      have hnext := ih (D := (a, a) :: D) ?_ ?_ ?_
      · have hdeclared : List.filterMap declaredAlias? (Phrase.node (.join outer fetch)
            [p, .node (.identifier a) [] r] s :: js) = a :: js.filterMap declaredAlias? := rfl
        rw [hdeclared, List.reverse_cons, diagonal, List.map_append, List.append_assoc]
        exact .named outer fetch s s r r hp hp (hself hD (hn.imp_left (hnames _)))
          (hself hE (hn.imp_left fun hn => hall _ (Or.inr hn))) ha ha
          (repeatsAlike_diagonal hD a) hnext
      · intro q hq
        rcases List.mem_cons.mp hq with rfl | hq
        · rfl
        · exact hD q hq
      · intro m hm
        rcases List.mem_cons.mp hm with rfl | hm
        · exact List.mem_cons_self
        · exact List.mem_cons_of_mem _ (hnames m hm)
      · rintro m (hm | hm)
        · exact hall m (Or.inl (List.mem_cons_of_mem a hm))
        · rcases List.mem_cons.mp hm with rfl | hm
          · exact hall m (Or.inl List.mem_cons_self)
          · exact hall m (Or.inr hm)

theorem rangesCorrespond_self {items : List Phrase} {D : Pairs} (h : ∀ r ∈ items, r.IsRange)
    (hD : Diagonal D) :
    RangesCorrespond D items items (diagonal (rangeAliases items).reverse ++ D) := by
  induction items generalizing D with
  | nil => exact .nil D
  | cons r items ih =>
      obtain ⟨a, entity, js, s₁, s₂, s₃, ha⟩ := h r (by simp)
      have hD' : Diagonal ((a, a) :: D) := by
        intro q hq
        rcases List.mem_cons.mp hq with rfl | hq
        · rfl
        · exact hD q hq
      have hrest := ih (fun r hr => h r (List.mem_cons_of_mem _ hr)) hD'
      have hdeclared : rangeAliases (Phrase.node .fromItem (.node (.entityName entity) [] s₁
          :: .node (.identifier a) [] s₂ :: js) s₃ :: items) = a :: rangeAliases items := rfl
      rw [hdeclared, List.reverse_cons, diagonal, List.map_append, List.append_assoc]
      exact .cons entity s₁ s₂ s₃ s₁ s₂ s₃ ha ha (repeatsAlike_diagonal hD a) hrest

theorem allCorrespond_self {k : Link} {d : Nat} {ρ : Pairs} {ts : List Phrase}
    (h : ∀ t ∈ ts, t.depth ≤ d → Corresponds k d d ρ t t) (hd : depthAll ts ≤ d) :
    AllCorrespond k d d ρ ts ts := by
  induction ts with
  | nil => exact .nil
  | cons t ts ih =>
      simp only [depthAll] at hd
      exact .cons (h t (by simp) (by omega))
        (ih (fun u hu => h u (List.mem_cons_of_mem t hu)) (by omega))

/-- A phrase whose free names are free in itself corresponds to itself. -/
theorem Within.corresponds {k : Link} {P : String → Prop} {t : Phrase} (h : Within P t)
    (hleaf : ∀ n ∈ t.nodes, n.label.isLeaf → k.leaf n.label n.label) {ρ : Pairs} (hρ : Diagonal ρ)
    (hfree : ∀ n, P n → n ∈ ρ.map Prod.fst ∨ k.free n n []) {d : Nat} (hd : t.depth ≤ d) :
    Corresponds k d d ρ t t := by
  induction h generalizing ρ d with
  | reference ht hn => exact .reference ht ht (refers_self hρ (hfree _ hn))
  | leaf s hl => exact .leaf s s hl hl (hleaf _ (mem_nodes_self _) hl)
  | @subselect P cs items rest distinct s₁ s₂ s₃ hitems hjoins _ _ hfinal hselect hrest =>
      simp only [depth, depthAll, if_true] at hd
      obtain ⟨d, rfl⟩ : ∃ e, d = e + 1 := ⟨d - 1, by omega⟩
      have hranges := rangesCorrespond_self hitems (D := []) (by simp [Diagonal])
      rw [List.append_nil] at hranges
      have hinner : ∀ n, n ∈ itemAliases items ∨ P n →
          n ∈ (diagonal (itemAliases items).reverse ++ ρ).map Prod.fst ∨ k.free n n [] := by
        intro n hn
        rw [List.map_append, List.mem_append, mem_map_fst_diagonal, List.mem_reverse, or_assoc]
        exact hn.imp_right (hfree n)
      have hdiagonal := (diagonal_diagonal (itemAliases items).reverse).append hρ
      have hclause : ∀ {c u : Phrase}, c ∈ [Phrase.node (.selectClause distinct) cs s₁] ++ rest →
          u ∈ c.nodes → u.label.isLeaf → k.leaf u.label u.label := by
        intro c u hc hu
        refine hleaf u (mem_nodes_of_child ?_ hu)
        rcases List.mem_append.mp hc with hc | hc
        · simp [List.mem_singleton.mp hc]
        · simp [hc]
      refine .subselect distinct s₁ s₂ s₃ s₁ s₂ s₃ hranges ?_
        (allCorrespond_self (fun t ht hd => hselect t ht
          (fun n hn => hclause List.mem_cons_self (mem_nodes_of_child ht hn)) hdiagonal hinner hd)
          (by omega))
        (allCorrespond_self (fun t ht hd => hrest t ht
          (fun n hn => hclause (List.mem_append_right _ ht) hn) hdiagonal hinner hd) (by omega))
        hfinal fun _ => rfl
      have hjs := hjoins.corresponds hρ (diagonal_diagonal (rangeAliases items).reverse)
        (diagonal_diagonal (itemAliases items).reverse) ?_ ?_ hfree
      · rwa [← diagonal_append, ← List.reverse_append] at hjs
      · intro n hn
        rwa [mem_map_fst_diagonal, List.mem_reverse]
      · intro n hn
        rw [mem_map_fst_diagonal, List.mem_reverse, itemAliases, List.mem_append]
        exact hn.symm
  | compound s hcompound _ ih =>
      simp only [depth] at hd
      exact .compound s s hcompound (allCorrespond_self
        (fun t ht hd => ih t ht (fun n hn => hleaf n (mem_nodes_of_child ht hn)) hρ hfree hd)
        (by omega))

end Query.Phrase

/-! ## Normal forms -/

theorem JoinsCorrespond.within {k : Link} {ρ P D E : Pairs} {js ks : List Phrase}
    (h : JoinsCorrespond k ρ P D js ks E) (names : List String) :
    JoinsWithin (fun _ => True) names js := by
  induction h generalizing names with
  | nil => exact .nil names
  | bare outer fetch s s' hp _ _ _ ih => exact .bare outer fetch s hp (Or.inr trivial) (ih names)
  | named outer fetch s s' r r' hp _ _ _ ha _ _ _ ih =>
      exact .named outer fetch s r hp (Or.inr trivial) ha (ih _)

theorem RangesCorrespond.isRange {D E : Pairs} {items items' : List Phrase}
    (h : RangesCorrespond D items items' E) : ∀ r ∈ items, r.IsRange := by
  induction h with
  | nil => simp
  | cons entity s₁ s₂ s₃ s₁' s₂' s₃' ha _ _ _ ih =>
      intro r hr
      rcases List.mem_cons.mp hr with rfl | hr
      · exact .intro _ entity _ s₁ s₂ s₃ ha
      · exact ih r hr

mutual

/-- Phrases that correspond to others are well-formed. -/
theorem Corresponds.within {k : Link} {i j : Nat} {ρ : Pairs} {t u : Phrase} :
    Corresponds k i j ρ t u → t.WellFormed
  | .reference ht _ _ => .reference ht trivial
  | .leaf s _ hl _ _ => .leaf s hl
  | .roles s _ r h _ _ => by
      refine .compound s rfl fun v hv => ?_
      rcases List.mem_cons.mp hv with rfl | hv
      · exact h.within
      · rw [List.mem_singleton.mp hv]
        exact .leaf r rfl
  | .subselect distinct s₁ s₂ s₃ _ _ _ hranges hjoins hselect hrest hfinal _ =>
      .subselect distinct s₁ s₂ s₃ hranges.isRange (hjoins.within _)
        (fun t ht => (hselect.within t ht).mono fun _ _ => Or.inr trivial)
        (fun t ht => (hrest.within t ht).mono fun _ _ => Or.inr trivial) hfinal
  | .compound s _ hcompound h => .compound s hcompound h.within

theorem AllCorrespond.within {k : Link} {i j : Nat} {ρ : Pairs} {ts us : List Phrase} :
    AllCorrespond k i j ρ ts us → ∀ t ∈ ts, t.WellFormed
  | .nil => by simp
  | .cons h hs => by
      intro t ht
      rcases List.mem_cons.mp ht with rfl | ht
      · exact h.within
      · exact hs.within t ht

end

/-- Every name and every leaf may stand for itself. -/
def Link.everything : Link where
  free n x ws := x = n ∧ ws = []
  leaf l m := l = m
  roles _ := False
  exact := True

namespace Query.Phrase.Within

variable {P : String → Prop} {t : Phrase}

theorem everything (h : Within P t) : Corresponds Link.everything t.depth t.depth [] t t :=
  h.corresponds (k := Link.everything) (fun _ _ _ => rfl) (by simp [Diagonal])
    (fun _ _ => Or.inr ⟨rfl, rfl⟩) (Nat.le_refl t.depth)

/-- Normal forms of well-formed phrases are well-formed. -/
theorem normalize (h : Within P t) : t.normalize.WellFormed :=
  h.everything.normalize.within

theorem depth_normalize_le (h : Within P t) : t.normalize.depth ≤ t.depth :=
  h.everything.normalize.depth_le

end Query.Phrase.Within

/-! ## What checking tells -/

namespace Query.Scope

variable {model : TypeModel} {scope declared ds : List AliasDefinition}

def names (scope : List AliasDefinition) : List String := scope.map AliasDefinition.name

theorem names_append (outer inner : List AliasDefinition) :
    names (outer ++ inner) = names outer ++ names inner := List.map_append

/-- The definition of an alias that is declared once is the one that is found. -/
theorem find?_of_mem {d : AliasDefinition} (hnodup : (names ds).Nodup) (hd : d ∈ ds) :
    find? (scope ++ ds) d.name = some d := by
  induction ds using List.reverseRecOn with
  | nil => cases hd
  | append_singleton ds e ih =>
      rw [← List.append_assoc, find?_concat]
      rw [names_append, List.nodup_append] at hnodup
      obtain ⟨hds, -, hdisjoint⟩ := hnodup
      rcases List.mem_append.mp hd with hd | hd
      · have hne : e.name ≠ d.name := fun heq =>
          hdisjoint d.name (List.mem_map_of_mem hd) e.name (by simp [names]) heq.symm
        rw [if_neg hne, ih hds hd]
      · obtain rfl := List.mem_singleton.mp hd
        rw [if_pos rfl]

theorem mem_names_of_find? {n : String} {d : AliasDefinition} (h : find? scope n = some d) :
    n ∈ names scope := by
  have hname := List.find?_some h
  rw [beq_iff_eq] at hname
  exact hname ▸ List.mem_map_of_mem (List.mem_reverse.mp (List.mem_of_find?_eq_some h))

/-- Looking for the type of a path looks for its root first, and without a model for nothing
else. -/
theorem typeOf_eq_bind (model? : Option TypeModel) (scope : List AliasDefinition) {t : Phrase}
    {n : String} {ws : List String} (ht : t.IsReference n ws) :
    ∃ (span : Source.Span) (behind : AliasDefinition → Checked (Option String)),
      typeOf model? scope t = resolve scope n span >>= behind ∧
        (model? = none → ∀ d, behind d = .ok none) := by
  cases ht with
  | name span => exact ⟨span, _, rfl, by rintro rfl d; rfl⟩
  | path rootSpan span => exact ⟨rootSpan, _, rfl, by rintro rfl d; rfl⟩

theorem mem_names_of_typeOf {model? : Option TypeModel} {t : Phrase} {n : String}
    {ws : List String} {type? : Option String} (ht : t.IsReference n ws)
    (h : typeOf model? scope t = .ok type?) : n ∈ names scope := by
  obtain ⟨span, behind, heq, -⟩ := typeOf_eq_bind model? scope ht
  rw [heq, resolve] at h
  cases hfind : find? scope n with
  | some d => exact mem_names_of_find? hfind
  | none =>
      rw [hfind] at h
      cases h

theorem names_declare {d : AliasDefinition} {s : Source.Span} (h : declare declared d s = .ok ds) :
    names ds = names declared ++ [d.name] := by
  unfold declare at h
  split at h
  · cases h
  · cases h
    simp [names]

/-- A computation that passes a test has a result. -/
theorem ok_of_any {ε α : Type} {x : Except ε α} {p : α → Bool} (h : x.toOption.any p) :
    ∃ a, x = .ok a ∧ p a := by
  cases x with
  | error e => cases h
  | ok a => exact ⟨a, rfl, h⟩

/-- A result of a sequence is one of its last step behind a result of its first. -/
theorem ok_of_bind {ε α β : Type} {x : Except ε α} {f : α → Except ε β} {b : β}
    (h : x >>= f = .ok b) : ∃ a, x = .ok a ∧ f a = .ok b := by
  cases x with
  | error e => cases h
  | ok a => exact ⟨a, rfl, h⟩

/-- Where a sequence has failed, one of its steps has. -/
theorem error_of_bind {ε α β : Type} {x : Except ε α} {f : α → Except ε β} {e : ε}
    (h : x >>= f = .error e) : x = .error e ∨ ∃ a, x = .ok a ∧ f a = .error e := by
  cases x with
  | error e' =>
      cases h
      exact Or.inl rfl
  | ok a => exact Or.inr ⟨a, rfl, h⟩

theorem declareRange_eq (model? : Option TypeModel) (kind : StatementKind)
    (declared : List AliasDefinition) (l : Label) (e a : String) (rest : List Phrase)
    (s₁ s₂ s₃ : Source.Span) : declareRange model? kind declared (.node l
        (.node (.entityName e) [] s₁ :: .node (.identifier a) [] s₂ :: rest) s₃) =
      if model?.any fun m => !m.hasEntity e then .error ⟨unknownEntity kind e, s₁⟩
      else declare declared (.range a e) s₂ := rfl

theorem names_declareRange {model? : Option TypeModel} {kind : StatementKind} {l : Label}
    {e a : String} {rest : List Phrase} {s₁ s₂ s₃ : Source.Span}
    (h : declareRange model? kind declared (.node l
      (.node (.entityName e) [] s₁ :: .node (.identifier a) [] s₂ :: rest) s₃) = .ok ds) :
    names ds = names declared ++ [a] := by
  rw [declareRange_eq] at h
  split at h
  · cases h
  · exact names_declare h

/-- If each phrase declares its alias, a sequence of them declares theirs. -/
theorem names_foldlM {declares : List AliasDefinition → Phrase → Checked (List AliasDefinition)}
    {ts : List Phrase} (hts : ∀ t ∈ ts, ∀ declared ds, declares declared t = .ok ds →
      names ds = names declared ++ [t].filterMap declaredAlias?)
    (h : ts.foldlM declares declared = .ok ds) :
    names ds = names declared ++ ts.filterMap declaredAlias? := by
  induction ts generalizing declared with
  | nil =>
      cases h
      exact (List.append_nil _).symm
  | cons t ts ih =>
      rw [List.foldlM_cons] at h
      obtain ⟨more, ht, hmore⟩ := ok_of_bind h
      rw [ih (fun u hu => hts u (List.mem_cons_of_mem t hu)) hmore,
        hts t List.mem_cons_self declared more ht, List.append_assoc, ← List.filterMap_append]
      rfl

theorem names_declareRanges {kind : StatementKind} {items : List Phrase}
    (hitems : ∀ r ∈ items, r.IsRange)
    (h : items.foldlM (declareRange (some model) kind) declared = .ok ds) :
    names ds = names declared ++ rangeAliases items := by
  refine names_foldlM (fun r hr declared ds h => ?_) h
  obtain ⟨a, entity, js, s₁, s₂, s₃, ha⟩ := hitems r hr
  exact names_declareRange h

/-- Checked join paths start at what is declared before them. -/
theorem within_declareJoins {js : List Phrase} {P : String → Prop} {before : List String}
    (hjoins : JoinsWithin P before js) (hbefore : ∀ n ∈ names declared, n ∈ before)
    (h : js.foldlM (declareJoin (some model) scope) declared = .ok ds) :
    JoinsWithin (· ∈ names scope) before js ∧
      names ds = names declared ++ js.filterMap declaredAlias? := by
  induction hjoins generalizing declared with
  | nil =>
      cases h
      exact ⟨.nil _, by simp⟩
  | @bare before p js n ws outer fetch s hp hn _ ih =>
      rw [List.foldlM_cons] at h
      obtain ⟨more, hjoin, hmore⟩ := ok_of_bind h
      obtain ⟨type?, htype, hjoin⟩ := ok_of_bind hjoin
      cases hjoin
      obtain ⟨hrest, hnames⟩ := ih hbefore hmore
      refine ⟨.bare outer fetch s hp ?_ hrest, hnames⟩
      have hmem := mem_names_of_typeOf hp htype
      rw [names_append, List.mem_append] at hmem
      exact hmem.symm.imp_left (hbefore n)
  | @named before p js n a ws outer fetch s r hp hn ha _ ih =>
      rw [List.foldlM_cons] at h
      obtain ⟨more, hjoin, hmore⟩ := ok_of_bind h
      obtain ⟨type?, htype, hjoin⟩ := ok_of_bind hjoin
      have hdeclare := names_declare hjoin
      obtain ⟨hrest, hnames⟩ := ih (by
        intro m hm
        rw [hdeclare, List.mem_append, List.mem_singleton] at hm
        rcases hm with hm | rfl
        · exact List.mem_cons_of_mem _ (hbefore m hm)
        · exact List.mem_cons_self) hmore
      refine ⟨.named outer fetch s r hp ?_ ha hrest, ?_⟩
      · have hmem := mem_names_of_typeOf hp htype
        rw [names_append, List.mem_append] at hmem
        exact hmem.symm.imp_left (hbefore n)
      · rw [hnames, hdeclare, List.append_assoc]
        rfl

theorem ok_of_checkAll {ts : List Phrase} {ss : List Query.Statement}
    (h : checkAll (some model) scope ts = .ok ss) :
    ∀ t ∈ ts, ∃ ss, check (some model) scope t = .ok ss := by
  induction ts generalizing ss with
  | nil => simp
  | cons t ts ih =>
      obtain ⟨first, hfirst, h⟩ := ok_of_bind h
      obtain ⟨others, hothers, -⟩ := ok_of_bind h
      intro u hu
      rcases List.mem_cons.mp hu with rfl | hu
      · exact ⟨first, hfirst⟩
      · exact ih hothers u hu

/-- Checking the clauses of a subselect tells the names in each of them. -/
theorem within_clauses {P : String → Prop} {cs items rest : List Phrase} {distinct : Bool}
    {s₁ s₂ s₃ : Source.Span} {ss : List Query.Statement} (hitems : ∀ r ∈ items, r.IsRange)
    (hjoins : JoinsWithin P (rangeAliases items) (joinsOf items))
    (hfinal : ∀ t ∈ rest, t.label.isFinalClause)
    (hdeclared : declarations (some model) .subselect scope (.node .subselect
      (.node (.selectClause distinct) cs s₁ :: .node .fromClause items s₂ :: rest) s₃) = .ok ds)
    (hclauses : checkClauses (some model) (scope ++ ds)
      (.node (.selectClause distinct) cs s₁ :: .node .fromClause items s₂ :: rest) = .ok ss) :
    JoinsWithin (· ∈ names scope) (rangeAliases items) (joinsOf items) ∧
      (∀ n ∈ names (scope ++ ds), n ∈ itemAliases items ∨ n ∈ names scope) ∧
      ∀ t, t ∈ cs ∨ t ∈ rest → ∃ ss, check (some model) (scope ++ ds) t = .ok ss := by
  rw [declarations_subselect] at hdeclared
  rw [checkClauses_subselect _ _ _ _ _ _ _ hfinal] at hclauses
  obtain ⟨ranges, hranges, hdeclared⟩ := ok_of_bind hdeclared
  have hnames := names_declareRanges hitems hranges
  obtain ⟨hwithin, hall⟩ := within_declareJoins hjoins (fun n hn => by rwa [hnames] at hn) hdeclared
  obtain ⟨first, hselect, hclauses⟩ := ok_of_bind hclauses
  obtain ⟨others, hrest, -⟩ := ok_of_bind hclauses
  refine ⟨hwithin, fun n hn => ?_, ?_⟩
  · rw [names_append, hall, hnames, List.mem_append] at hn
    exact hn.symm
  · rintro t (ht | ht)
    · exact ok_of_checkAll hselect t ht
    · exact ok_of_checkAll hrest t ht

/-- The free names of a well-formed phrase that is checked are in scope. -/
theorem within_of_check {P : String → Prop} {t : Phrase} {ss : List Query.Statement}
    (ht : Within P t) (h : check (some model) scope t = .ok ss) :
    Within (· ∈ names scope) t := by
  induction ht generalizing scope ss with
  | reference ht _ =>
      rw [check_reference model scope ht] at h
      cases htype : typeOf (some model) scope _ with
      | error e =>
          rw [htype] at h
          cases h
      | ok type? => exact .reference ht (mem_names_of_typeOf ht htype)
  | leaf s hl => exact .leaf s hl
  | subselect distinct s₁ s₂ s₃ hitems hjoins _ _ hfinal hselect hrest =>
      obtain ⟨ds, hdeclared, h⟩ := ok_of_bind h
      obtain ⟨subselects, hclauses, -⟩ := ok_of_bind h
      obtain ⟨hjoins, hnames, hchecked⟩ :=
        within_clauses hitems hjoins hfinal hdeclared hclauses
      refine .subselect distinct s₁ s₂ s₃ hitems hjoins (fun t ht => ?_) (fun t ht => ?_) hfinal
      · obtain ⟨ss, hcheck⟩ := hchecked t (Or.inl ht)
        exact (hselect t ht hcheck).mono hnames
      · obtain ⟨ss, hcheck⟩ := hchecked t (Or.inr ht)
        exact (hrest t ht hcheck).mono hnames
  | compound s hcompound _ ih =>
      rw [check_compound _ _ hcompound] at h
      refine .compound s hcompound fun t ht => ?_
      obtain ⟨ss, hcheck⟩ := ok_of_checkAll h t ht
      exact ih t ht hcheck

end Query.Scope

end RowGuard
