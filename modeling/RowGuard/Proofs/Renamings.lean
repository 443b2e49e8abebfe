import RowGuard.Proofs.Insertions

/-!
# New names for aliases

An alias that is taken gets another name, which is the alias with a number behind
it.  Among the names below a subselect the renaming in force stays injective as
long as no new name stands there already: a name is then itself, or a made one
that is taken and stands nowhere below.  From clauses are renamed along.
-/

namespace RowGuard

open Query (Label Phrase)
open Query.Phrase
open Restriction

/-! ## Names with numbers -/

/-- Whether a name is another one with a number behind it. -/
def isNumbered (base name : String) : Bool :=
  let digits := name.toList.drop base.toList.length
  base.toList.isPrefixOf name.toList && !digits.isEmpty && digits.all Query.Scan.isDigit

section Numbers

variable {a b c : String}

theorem isNumbered_iff : isNumbered a b = true ↔
    ∃ digits : List Char, digits ≠ [] ∧ digits.all Query.Scan.isDigit ∧
      b.toList = a.toList ++ digits := by
  simp only [isNumbered, Bool.and_eq_true, List.isPrefixOf_iff_prefix, Bool.not_eq_true',
    List.isEmpty_eq_false_iff]
  constructor
  · rintro ⟨⟨⟨digits, hdigits⟩, hne⟩, hall⟩
    rw [← hdigits, List.drop_left] at hne hall
    exact ⟨digits, hne, hall, hdigits.symm⟩
  · rintro ⟨digits, hne, hall, heq⟩
    rw [heq, List.drop_left]
    exact ⟨⟨List.prefix_append _ _, hne⟩, hall⟩

theorem isNumbered_indexed (base : String) (taken : List String) :
    isNumbered base (Text.Fresh.indexed base taken) := by
  obtain ⟨i, -, -, heq⟩ := Text.Fresh.exists_indexed base taken
  rw [heq]
  exact isNumbered_iff.mpr ⟨Nat.toDigits 10 i, Nat.toDigits_ne_nil,
    List.all_eq_true.mpr fun _ hd => isDigit_of_mem_toDigits hd, toList_indexed i⟩

theorem isNumbered_trans (hab : isNumbered a b) (hbc : isNumbered b c) : isNumbered a c := by
  obtain ⟨ds, hds, hall, hb⟩ := isNumbered_iff.mp hab
  obtain ⟨es, -, hall', hc⟩ := isNumbered_iff.mp hbc
  refine isNumbered_iff.mpr ⟨ds ++ es, by simp [hds], ?_, ?_⟩
  · rw [List.all_append, hall, hall', Bool.and_true]
  · rw [hc, hb, List.append_assoc]

theorem isWord_of_isNumbered (ha : IsWord a) (h : isNumbered a b) : IsWord b := by
  obtain ⟨ds, hds, hall, hb⟩ := isNumbered_iff.mp h
  refine ⟨?_, ?_⟩
  · rintro rfl
    exact hds (List.append_eq_nil_iff.mp hb.symm).2
  · rw [hb, List.mem_append, not_or]
    refine ⟨ha.2, fun hdot => ?_⟩
    have hdigit := List.all_eq_true.mp hall _ hdot
    revert hdigit
    decide

end Numbers

/-! ## What may be renamed -/

/-- The names that stand in a phrase, declared or referred to. -/
def namesIn (t : Phrase) : List String := t.nodes.filterMap identifier?

def namesInAll (ts : List Phrase) : List String := ts.flatMap namesIn

/-- The subselects of a phrase, those around others first. -/
def subselects (t : Phrase) : List Phrase := t.collect fun n => n.label == .subselect

/-- An alias that may have to be renamed: it is reserved, or declared twice, or
another alias may get its name. -/
def Collides (taken : List String) (t : Phrase) (a : String) : Prop :=
  a ∈ taken ∨ 2 ≤ (declaredWithin t).count a ∨ ∃ b ∈ declaredWithin t, isNumbered b a

/-- A subselect repeats the aliases that another one repeats, and no others. -/
def DeclaresAlike (u v : Phrase) : Prop :=
  ∀ i j : Nat, v.declaredAliases[i]? = v.declaredAliases[j]? ↔
    u.declaredAliases[i]? = u.declaredAliases[j]?

/-- What a phrase must be like so that keeping its aliases apart captures nothing.  Where
an alias may have to be renamed, the names that it could get and that stand in its subselect
are reserved, and a join of the subselect that starts at it comes behind its declaration. -/
structure Spared (taken : List String) (t : Phrase) : Prop where
  names : ∀ u ∈ t.nodes, u.label = .subselect → ∀ a ∈ u.declaredAliases, Collides taken t a →
    ∀ n ∈ namesIn u, isNumbered a n → n ∈ taken
  joins : ∀ u ∈ t.nodes, u.label = .subselect →
    JoinsWithin (fun n => n ∈ u.declaredAliases → ¬ Collides taken t n)
      (rangeAliases (fromItems u)) (joinsOf (fromItems u))

/-- Free names stand for themselves. -/
def Link.keeping : Link where
  free n x ws := x = n ∧ ws = []
  leaf l m := l = m
  roles _ := False
  exact := False

/-! ## Claims in force -/

/-- Every name that is taken was reserved from the start, is an alias that has been seen,
or is one of them with a number. -/
structure Reserved (before seen taken : List String) : Prop where
  kept : before ⊆ taken
  origin : ∀ y ∈ taken, y ∈ before ∨ y ∈ seen ∨ ∃ b ∈ seen, isNumbered b y

/-- Among some names, a renaming has moved only aliases that have been seen, each to a name
that is taken and none of them, and has merged none. -/
structure Renames (seen taken names : List String) (rename : String → String) : Prop where
  moved : ∀ n ∈ names, rename n = n ∨
    (n ∈ seen ∧ rename n ∈ taken ∧ rename n ∉ names ∧ isNumbered n (rename n))
  injective : ∀ m ∈ names, ∀ n ∈ names, rename m = rename n → m = n

/-- What a renaming has become after some of the aliases of a subselect are claimed. -/
structure Claims (whole : Phrase) (before seen taken names : List String)
    (rename : String → String) (done : List String) (r : Renaming) : Prop where
  grown : taken ⊆ r.2
  reserved : Reserved before (seen ++ done) r.2
  moved : ∀ n ∈ names, r.1 n = rename n ∨ (n ∈ done ∧ Collides before whole n ∧
    r.1 n ∈ r.2 ∧ r.1 n ∉ taken ∧ r.1 n ∉ names ∧ isNumbered n (r.1 n))
  injective : ∀ m ∈ names, ∀ n ∈ names, r.1 m = r.1 n → m = n

section Claiming

variable {before seen taken names done : List String} {rename : String → String} {r : Renaming}
  {d : String} {whole : Phrase}

theorem Reserved.mono {more : List String} (h : Reserved before seen taken) (hseen : seen ⊆ more) :
    Reserved before more taken where
  kept := h.kept
  origin y hy := (h.origin y hy).imp_right
    (Or.imp (fun hy => hseen hy) fun ⟨b, hb, hnumbered⟩ => ⟨b, hseen hb, hnumbered⟩)

theorem Reserved.cons {y : String} (h : Reserved before seen taken)
    (hy : y ∈ seen ∨ ∃ b ∈ seen, isNumbered b y) : Reserved before seen (y :: taken) where
  kept := fun _ hn => List.mem_cons_of_mem y (h.kept hn)
  origin z hz := by
    rcases List.mem_cons.mp hz with rfl | hz
    · exact Or.inr hy
    · exact h.origin z hz

/-- With more seen, more taken and fewer names to look at, it is the same. -/
theorem Renames.mono {more taken' names' : List String} (h : Renames seen taken names rename)
    (hseen : seen ⊆ more) (htaken : taken ⊆ taken') (hnames : names' ⊆ names) :
    Renames more taken' names' rename where
  moved n hn := (h.moved n (hnames hn)).imp_right fun ⟨hmem, hmade, hnot, hnumbered⟩ =>
    ⟨hseen hmem, htaken hmade, fun hin => hnot (hnames hin), hnumbered⟩
  injective m hm n hn := h.injective m (hnames hm) n (hnames hn)

theorem Renames.id (seen taken names : List String) : Renames seen taken names id where
  moved _ _ := Or.inl rfl
  injective _ _ _ _ h := h

theorem Renames.isWord (h : Renames seen taken names rename) {n : String} (hn : n ∈ names)
    (hword : IsWord n) : IsWord (rename n) := by
  rcases h.moved n hn with heq | ⟨-, -, -, hnumbered⟩
  · rwa [heq]
  · exact isWord_of_isNumbered hword hnumbered

theorem Claims.none (h : Reserved before seen taken) (hrenames : Renames seen taken names rename) :
    Claims whole before seen taken names rename [] (rename, taken) where
  grown := fun _ hn => hn
  reserved := by rwa [List.append_nil]
  moved _ _ := Or.inl rfl
  injective := hrenames.injective

namespace Claims

/-- Only the alias itself goes by the name that is claimed for it. -/
theorem eq_of_claimed (hrenames : Renames seen taken names rename)
    (h : Claims whole before seen taken names rename done r) (hd : d ∈ names) {m : String}
    (hm : m ∈ names) (heq : r.1 m = rename d) : m = d := by
  rcases h.moved m hm with hsame | ⟨-, -, -, hnew, hnot, -⟩
  · exact hrenames.injective m hm d hd (hsame.symm.trans heq)
  · rcases hrenames.moved d hd with hself | ⟨-, hmade, -⟩
    · exact absurd (heq ▸ hself.symm ▸ hd) hnot
    · exact absurd (heq ▸ hmade) hnew

/-- A name that is neither taken nor one of the names is nobody's. -/
theorem ne_of_fresh (hrenames : Renames seen taken names rename)
    (h : Claims whole before seen taken names rename done r) {y m : String} (hy : y ∉ r.2)
    (hnot : y ∉ names) (hm : m ∈ names) : r.1 m ≠ y := by
  rintro rfl
  rcases h.moved m hm with hsame | ⟨-, -, hmade, -⟩
  · rw [hsame] at hy hnot
    rcases hrenames.moved m hm with hself | ⟨-, hmade, -⟩
    · exact hnot (hself.symm ▸ hm)
    · exact hy (h.grown hmade)
  · exact hy hmade

/-- Claiming one more alias, which collides if it is taken. -/
theorem step (hrenames : Renames seen taken names rename)
    (h : Claims whole before seen taken names rename done r) (hd : d ∈ names)
    (hcollides : rename d ∈ r.2 → Collides before whole d)
    (hspared : Collides before whole d → ∀ n ∈ names, isNumbered d n → n ∈ before) :
    Claims whole before seen taken names rename (done ++ [d]) (claim r (rename d)) := by
  have hreserved : Reserved before (seen ++ (done ++ [d])) r.2 :=
    h.reserved.mono fun n hn => by
      rw [← List.append_assoc]
      exact List.mem_append_left [d] hn
  have hmem : d ∈ seen ++ (done ++ [d]) := by simp
  by_cases htaken : rename d ∈ r.2
  · obtain ⟨y, hy⟩ : ∃ y, y = Text.Fresh.indexed (rename d) r.2 := ⟨_, rfl⟩
    have hfresh : y ∉ r.2 := hy ▸ Text.Fresh.indexed_not_mem (rename d) r.2
    have hnumbered : isNumbered d y := by
      have hstep : isNumbered (rename d) y := hy ▸ isNumbered_indexed (rename d) r.2
      rcases hrenames.moved d hd with heq | ⟨-, -, -, hmade⟩
      · rwa [heq] at hstep
      · exact isNumbered_trans hmade hstep
    have hnot : y ∉ names := fun hin =>
      hfresh (h.reserved.kept (hspared (hcollides htaken) y hin hnumbered))
    have hclaim : claim r (rename d) = (thenRename r.1 (rename d) y, y :: r.2) := by
      simp [claim, htaken, hy]
    rw [hclaim]
    refine ⟨fun n hn => List.mem_cons_of_mem y (h.grown hn),
      hreserved.cons (Or.inr ⟨d, hmem, hnumbered⟩), fun n hn => ?_, fun m hm n hn heq => ?_⟩
    · by_cases hn' : r.1 n = rename d
      · obtain rfl := eq_of_claimed hrenames h hd hn hn'
        simp only [thenRename, hn', if_true]
        exact Or.inr ⟨by simp, hcollides htaken, List.mem_cons_self,
          fun hin => hfresh (h.grown hin), hnot, hnumbered⟩
      · simp only [thenRename, hn', if_false]
        rcases h.moved n hn with heq | ⟨hin, hmoves, hmade, hrest⟩
        · exact Or.inl heq
        · exact Or.inr ⟨List.mem_append_left _ hin, hmoves, List.mem_cons_of_mem y hmade, hrest⟩
    · have hmine : ∀ l ∈ names, r.1 l ≠ y := fun l hl => ne_of_fresh hrenames h hfresh hnot hl
      by_cases hm' : r.1 m = rename d
      · by_cases hn' : r.1 n = rename d
        · exact h.injective m hm n hn (hm'.trans hn'.symm)
        · simp only [thenRename, hm', if_true, hn', if_false] at heq
          exact absurd heq.symm (hmine n hn)
      · by_cases hn' : r.1 n = rename d
        · simp only [thenRename, hm', if_false, hn', if_true] at heq
          exact absurd heq (hmine m hm)
        · simp only [thenRename, hm', hn', if_false] at heq
          exact h.injective m hm n hn heq
  · have hself : rename d = d := by
      rcases hrenames.moved d hd with heq | ⟨-, hmade, -⟩
      · exact heq
      · exact absurd (h.grown hmade) htaken
    have hclaim : claim r (rename d) = (r.1, rename d :: r.2) := by simp [claim, htaken]
    rw [hclaim]
    refine ⟨fun n hn => List.mem_cons_of_mem _ (h.grown hn),
      hreserved.cons (Or.inl (hself.symm ▸ hmem)), fun n hn => ?_, h.injective⟩
    rcases h.moved n hn with heq | ⟨hin, hmoves, hmade, hrest⟩
    · exact Or.inl heq
    · exact Or.inr ⟨List.mem_append_left _ hin, hmoves, List.mem_cons_of_mem _ hmade, hrest⟩

/-- A name that is taken collides, if it is claimed for an alias that comes next. -/
theorem collides {later : List String}
    (hrenames : Renames seen taken names rename)
    (h : Claims whole before seen taken names rename done r) (hd : d ∈ names)
    (hahead : seen ++ (done ++ d :: later) <+: declaredWithin whole) (htaken : rename d ∈ r.2) :
    Collides before whole d := by
  have hcount : d ∈ seen ++ done → 2 ≤ (declaredWithin whole).count d := by
    intro hmem
    calc 2 ≤ (seen ++ done).count d + (d :: later).count d := by
          rw [List.count_cons_self]
          have := List.one_le_count_iff.mpr hmem
          omega
      _ = (seen ++ (done ++ d :: later)).count d := by
          simp only [List.count_append, Nat.add_assoc]
      _ ≤ (declaredWithin whole).count d := hahead.sublist.count_le d
  rcases hrenames.moved d hd with hself | ⟨hseen, -⟩
  · rw [hself] at htaken
    rcases h.reserved.origin d htaken with hmem | hmem | ⟨b, hb, hnumbered⟩
    · exact Or.inl hmem
    · exact Or.inr (Or.inl (hcount hmem))
    · refine Or.inr (Or.inr ⟨b, hahead.subset ?_, hnumbered⟩)
      rw [← List.append_assoc]
      exact List.mem_append_left _ hb
  · exact Or.inr (Or.inl (hcount (List.mem_append_left done hseen)))

/-- Claiming all aliases of a subselect, one after the other. -/
theorem foldl (hrenames : Renames seen taken names rename)
    {ds : List String}
    (hspared : ∀ a ∈ ds, Collides before whole a → ∀ n ∈ names, isNumbered a n → n ∈ before)
    (hds : ds ⊆ names)
    (h : Claims whole before seen taken names rename done r)
    (hahead : seen ++ (done ++ ds) <+: declaredWithin whole) :
    Claims whole before seen taken names rename (done ++ ds) ((ds.map rename).foldl claim r) := by
  induction ds generalizing done r with
  | nil => rwa [List.append_nil]
  | cons d ds ih =>
      obtain ⟨hd, hds⟩ := List.cons_subset.mp hds
      have hstep := h.step hrenames hd (h.collides hrenames hd hahead)
        (hspared d List.mem_cons_self)
      have hrest := ih (fun a ha => hspared a (List.mem_cons_of_mem d ha)) hds hstep
        (by simpa using hahead)
      simpa using hrest

theorem renames (hrenames : Renames seen taken names rename)
    (h : Claims whole before seen taken names rename done r) :
    Renames (seen ++ done) r.2 names r.1 where
  moved n hn := by
    rcases h.moved n hn with heq | ⟨hin, -, hmade, -, hnot, hnumbered⟩
    · rw [heq]
      exact (hrenames.moved n hn).imp_right fun ⟨hseen, hmade, hrest⟩ =>
        ⟨List.mem_append_left done hseen, h.grown hmade, hrest⟩
    · exact Or.inr ⟨List.mem_append_right seen hin, hmade, hnot, hnumbered⟩
  injective := h.injective

end Claims

end Claiming

/-! ## Names in parts -/

theorem namesIn_node (l : Label) (cs : List Phrase) (s : Source.Span) :
    namesIn (.node l cs s) = (Phrase.node l [] s).identifier?.toList ++ namesInAll cs := by
  have hall : ∀ ts : List Phrase,
      (visitAll (fun _ => true) ts).filterMap identifier? = namesInAll ts := by
    intro ts
    induction ts with
    | nil => rfl
    | cons t ts ih =>
        rw [visitAll, List.filterMap_append, ih]
        rfl
  unfold namesIn nodes
  rw [visit, if_pos rfl, List.filterMap_cons, hall]
  cases l <;> rfl

theorem subselects_node (l : Label) (cs : List Phrase) (s : Source.Span) :
    subselects (.node l cs s) =
      (if l = .subselect then [.node l cs s] else []) ++ cs.flatMap subselects := by
  have hall : ∀ ts : List Phrase, (visitAll (fun _ => true) ts).filter (fun n =>
      n.label == .subselect) = ts.flatMap subselects := by
    intro ts
    induction ts with
    | nil => rfl
    | cons t ts ih =>
        rw [visitAll, List.filter_append, ih]
        rfl
  unfold subselects collect nodes
  rw [visit, if_pos rfl, List.filter_cons, hall]
  cases l <;> rfl

theorem namesIn_subset {l : Label} {cs : List Phrase} {s : Source.Span} {t : Phrase}
    (ht : t ∈ cs) : namesIn t ⊆ namesIn (.node l cs s) := by
  intro n hn
  rw [namesIn_node]
  exact List.mem_append_right _ (List.mem_flatMap.mpr ⟨t, ht, hn⟩)

theorem namesInAll_subset {ts : List Phrase} {names : List String}
    (h : ∀ t ∈ ts, namesIn t ⊆ names) : namesInAll ts ⊆ names := by
  intro n hn
  obtain ⟨t, ht, hn⟩ := List.mem_flatMap.mp hn
  exact h t ht hn

theorem mem_namesIn_reference {t : Phrase} {n : String} {ws : List String}
    (h : t.IsReference n ws) : n ∈ namesIn t := by
  cases h <;> simp [namesIn_node, namesInAll, identifier?, Phrase.label]

/-- Names of a join are its root and its alias. -/
theorem mem_namesIn_alias {t : Phrase} {a : String} (h : t.declaredAlias? = some a) :
    a ∈ namesIn t := by
  obtain ⟨l, cs, s⟩ := t
  obtain ⟨u, hu, ha⟩ := Option.bind_eq_some_iff.mp h
  refine namesIn_subset (List.mem_of_getElem? hu) ?_
  obtain ⟨m, ds, r⟩ := u
  rw [namesIn_node]
  cases m <;> simp_all [identifier?, Phrase.label]

/-! ## From clauses -/

/-- The pairs of some names and what a renaming makes of them. -/
def renamedPairs (rename : String → String) (names : List String) : Pairs :=
  names.map fun n => (n, rename n)

section FromClauses

variable {k : Link} {ρ : Pairs} {rename : String → String} {taken names : List String}

/-- Behind pairs of a renaming, a name refers to what it is renamed to, if it does so where
they do not declare it. -/
theorem refers_renamed (hinjective : ∀ m ∈ names, ∀ n ∈ names, rename m = rename n → m = n)
    {declared : List String} (hdeclared : declared ⊆ names) {n : String} (hn : n ∈ names)
    (h : n ∉ declared → Refers k ρ n (rename n) []) :
    Refers k (renamedPairs rename declared ++ ρ) n (rename n) [] := by
  induction declared with
  | nil => exact h List.not_mem_nil
  | cons a declared ih =>
      obtain ⟨ha, hdeclared⟩ := List.cons_subset.mp hdeclared
      refine Refers.cons_iff.mpr ?_
      by_cases heq : a = n
      · exact Or.inl ⟨heq, heq ▸ rfl, rfl⟩
      · refine Or.inr ⟨heq, fun hsame => heq (hinjective a ha n hn hsame),
          ih hdeclared fun hnot => ?_⟩
        exact h fun hmem => (List.mem_cons.mp hmem).elim (fun hna => heq hna.symm) hnot

theorem repeatsAlike_renamed (hinjective : ∀ m ∈ names, ∀ n ∈ names, rename m = rename n → m = n)
    {declared : List String} (hdeclared : declared ⊆ names) {a : String} (ha : a ∈ names) :
    RepeatsAlike (renamedPairs rename declared) a (rename a) := by
  simp only [RepeatsAlike, renamedPairs, List.map_map, List.mem_map, Function.comp_apply,
    exists_eq_right]
  constructor
  · exact fun hmem => ⟨a, hmem, rfl⟩
  · rintro ⟨b, hb, heq⟩
    exact hinjective b (hdeclared hb) a ha heq ▸ hb

theorem separateAll_cons (t : Phrase) (ts : List Phrase) :
    separateAll rename taken (t :: ts) =
      ((separate rename taken t).1 :: (separateAll rename (separate rename taken t).2 ts).1,
        (separateAll rename (separate rename taken t).2 ts).2) := rfl

theorem separateAll_append (ts us : List Phrase) :
    separateAll rename taken (ts ++ us) =
      ((separateAll rename taken ts).1 ++
          (separateAll rename (separateAll rename taken ts).2 us).1,
        (separateAll rename (separateAll rename taken ts).2 us).2) := by
  induction ts generalizing taken with
  | nil => rfl
  | cons t ts ih => rw [List.cons_append, separateAll_cons, ih, separateAll_cons, List.cons_append]

theorem separate_plain {l : Label} (hl : l ≠ .subselect) (cs : List Phrase) (s : Source.Span) :
    separate rename taken (.node l cs s) =
      (.node (renameLabel rename l) (separateAll rename taken cs).1 s,
        (separateAll rename taken cs).2) := by
  rw [separate_node]
  simp [insideOf, Phrase.label, hl]

/-- A reference goes on from what its root is renamed to. -/
theorem separate_reference (rename : String → String) (taken : List String) {t : Phrase}
    {n : String} {ws : List String} (ht : t.IsReference n ws) :
    (IsWord (rename n) → (separate rename taken t).1.IsReference (rename n) ws) ∧
      (separate rename taken t).2 = taken := by
  cases ht with
  | name s _ => exact ⟨fun hword => .name s hword, rfl⟩
  | path r s _ hsegments =>
      rw [separate_plain (by simp), separateAll_cons, separate_plain (by simp), separateAll,
        separateAll_segments hsegments]
      exact ⟨fun hword => .path r s hword hsegments, rfl⟩

/-- Joins take no names. -/
theorem taken_of_joins (rename : String → String) (taken : List String) {js : List Phrase}
    (hjs : ∀ j ∈ js, j.IsJoin) :
    (separateAll rename taken js).2 = taken := by
  induction js with
  | nil => rfl
  | cons j js ih =>
      obtain ⟨hj, hjs⟩ := List.forall_mem_cons.mp hjs
      have htaken : (separate rename taken j).2 = taken := by
        cases hj with
        | bare outer fetch s hp =>
            rw [separate_plain (by simp)]
            exact (separate_reference rename taken hp).2
        | named outer fetch s r hp _ =>
            rw [separate_plain (by simp)]
            exact (separate_reference rename taken hp).2
      rw [separateAll_cons, htaken, ih hjs]

/-- Joins whose roots refer to what they are renamed to, wherever they are not declared
before, correspond to their renamed forms. -/
theorem joinsCorrespond_separate (taken : List String) {Q : String → Prop}
    {before : List String} (declared : List String) {js : List Phrase}
    (h : JoinsWithin Q before js)
    (hinjective : ∀ m ∈ names, ∀ n ∈ names, rename m = rename n → m = n)
    (hwords : ∀ n ∈ names, IsWord n → IsWord (rename n))
    (hopen : ∀ n ∈ names, Q n → Refers k ρ n (rename n) [])
    (hbefore : ∀ n, n ∈ before ↔ n ∈ declared) (hdeclared : declared ⊆ names)
    (hnames : ∀ j ∈ js, namesIn j ⊆ names) {all : List String} (hall : all ⊆ names)
    (hmore : declared ⊆ all) (hlater : js.filterMap declaredAlias? ⊆ all) :
    JoinsCorrespond k ρ (renamedPairs rename all) (renamedPairs rename declared) js
      (separateAll rename taken js).1
      (renamedPairs rename ((js.filterMap declaredAlias?).reverse ++ declared)) := by
  induction h generalizing declared with
  | nil => exact .nil _
  | @bare before p js n ws outer fetch s hp hn _ ih =>
      have hmem : n ∈ names := hnames _ List.mem_cons_self
        (namesIn_subset List.mem_cons_self (mem_namesIn_reference hp))
      obtain ⟨hq, htaken⟩ := separate_reference rename taken hp
      have hq := hq (hwords n hmem hp.isWord_root)
      have hseparated : separate rename taken (.node (.join outer fetch) [p] s) =
          (.node (.join outer fetch) [(separate rename taken p).1] s, taken) := by
        rw [separate_plain (by simp), separateAll_cons, htaken]
        rfl
      rw [separateAll_cons, hseparated]
      exact .bare outer fetch s s hp hq
        (refers_renamed hinjective hdeclared hmem fun hnot =>
          hopen n hmem (hn.resolve_left fun hin => hnot ((hbefore n).mp hin)))
        (ih declared hbefore hdeclared (fun j hj => hnames j (List.mem_cons_of_mem _ hj)) hmore
          hlater)
  | @named before p js n a ws outer fetch s r hp hn ha _ ih =>
      have hmem : n ∈ names := hnames _ List.mem_cons_self
        (namesIn_subset List.mem_cons_self (mem_namesIn_reference hp))
      have hamem : a ∈ names := hnames _ List.mem_cons_self (mem_namesIn_alias rfl)
      obtain ⟨hq, htaken⟩ := separate_reference rename taken hp
      have hq := hq (hwords n hmem hp.isWord_root)
      have hseparated : separate rename taken
          (.node (.join outer fetch) [p, .node (.identifier a) [] r] s) =
          (.node (.join outer fetch)
            [(separate rename taken p).1, .node (.identifier (rename a)) [] r] s, taken) := by
        rw [separate_plain (by simp), separateAll_cons, htaken]
        rfl
      have hfree : n ∉ declared → Refers k ρ n (rename n) [] := fun hnot =>
        hopen n hmem (hn.resolve_left fun hin => hnot ((hbefore n).mp hin))
      have hlater' : a ∈ all ∧ js.filterMap declaredAlias? ⊆ all := by
        have hcons : (Phrase.node (.join outer fetch) [p, .node (.identifier a) [] r] s
            :: js).filterMap declaredAlias? = a :: js.filterMap declaredAlias? := rfl
        rw [hcons] at hlater
        exact List.cons_subset.mp hlater
      have hrest := ih (a :: declared) (fun m => by simp [hbefore])
        (List.cons_subset.mpr ⟨hamem, hdeclared⟩)
        (fun j hj => hnames j (List.mem_cons_of_mem _ hj))
        (List.cons_subset.mpr ⟨hlater'.1, hmore⟩) hlater'.2
      have hcons : (Phrase.node (.join outer fetch) [p, .node (.identifier a) [] r] s
          :: js).filterMap declaredAlias? = a :: js.filterMap declaredAlias? := rfl
      rw [separateAll_cons, hseparated, hcons, List.reverse_cons, List.append_assoc]
      exact .named outer fetch s s r r hp hq (refers_renamed hinjective hdeclared hmem hfree)
        (refers_renamed hinjective hall hmem fun hnot => hfree fun hin => hnot (hmore hin))
        ha (hwords a hamem ha) (repeatsAlike_renamed hinjective hdeclared hamem) hrest

/-- Ranges correspond to their renamed forms, and take no names. -/
theorem rangesCorrespond_separate (taken : List String) {items : List Phrase}
    (hitems : ∀ r ∈ items, r.IsRange)
    (hjoins : ∀ j ∈ joinsOf items, j.IsJoin)
    (hinjective : ∀ m ∈ names, ∀ n ∈ names, rename m = rename n → m = n)
    (hwords : ∀ n ∈ names, IsWord n → IsWord (rename n))
    (hnames : rangeAliases items ⊆ names) (declared : List String) (hdeclared : declared ⊆ names) :
    RangesCorrespond (renamedPairs rename declared) items (separateAll rename taken items).1
        (renamedPairs rename ((rangeAliases items).reverse ++ declared)) ∧
      joinsOf (separateAll rename taken items).1 = (separateAll rename taken (joinsOf items)).1 ∧
      (separateAll rename taken items).2 = taken := by
  induction items generalizing declared with
  | nil => exact ⟨.nil _, rfl, rfl⟩
  | cons r items ih =>
      obtain ⟨hr, hrest⟩ := List.forall_mem_cons.mp hitems
      obtain ⟨a, entity, js, s₁, s₂, s₃, ha⟩ := hr
      simp only [joinsOf, List.flatMap_cons, Phrase.children, List.drop_succ_cons, List.drop_zero,
        List.mem_append] at hjoins
      have hjs := taken_of_joins rename taken fun j hj => hjoins j (Or.inl hj)
      have hcons : rangeAliases (.node .fromItem (.node (.entityName entity) [] s₁
          :: .node (.identifier a) [] s₂ :: js) s₃ :: items) = a :: rangeAliases items := rfl
      rw [hcons] at hnames
      obtain ⟨hamem, hnames⟩ := List.cons_subset.mp hnames
      have hseparated : separate rename taken (.node .fromItem (.node (.entityName entity) [] s₁
          :: .node (.identifier a) [] s₂ :: js) s₃) = (.node .fromItem
            (.node (.entityName entity) [] s₁ :: .node (.identifier (rename a)) [] s₂
              :: (separateAll rename taken js).1) s₃, taken) := by
        rw [separate_plain (by simp), separateAll_cons, separateAll_cons]
        show (_, (separateAll rename taken js).2) = _
        rw [hjs]
        rfl
      obtain ⟨hranges, hjoinsOf, htaken⟩ := ih hrest
        (fun j hj => hjoins j (Or.inr hj)) hnames (a :: declared)
        (List.cons_subset.mpr ⟨hamem, hdeclared⟩)
      rw [separateAll_cons, hseparated, hcons, List.reverse_cons, List.append_assoc]
      refine ⟨.cons entity s₁ s₂ s₃ s₁ s₂ s₃ ha (hwords a hamem ha)
        (repeatsAlike_renamed hinjective hdeclared hamem) hranges, ?_, htaken⟩
      have hmore : joinsOf (Phrase.node .fromItem (.node (.entityName entity) [] s₁
          :: .node (.identifier a) [] s₂ :: js) s₃ :: items) = js ++ joinsOf items := rfl
      rw [hmore, separateAll_append, hjs]
      exact congrArg _ hjoinsOf

end FromClauses

end RowGuard
