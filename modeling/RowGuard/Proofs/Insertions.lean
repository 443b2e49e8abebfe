import RowGuard.Proofs.FreshNames
import RowGuard.Proofs.Recasting
import RowGuard.Proofs.Restrictions

/-!
# Conditions put into a query

The condition of a rule goes through three hands before it stands in a query:
its aliases are kept apart from those of the query, the path of the object takes
the place of its subject, and parameters take the place of the context.  Each of
them only recasts the condition.  New aliases and new parameters have names that
can be written, since an index behind a name makes a name again.
-/

namespace RowGuard

open Query (AccessKind ContextItem Keyword Label Phrase isName isParameterName)
open Query.Phrase
open Query.Grammar (Category Derives isVariable)

/-! ## New names -/

section Names

variable {base : String}

/-- Digits behind a name. -/
theorem toList_indexed (i : Nat) :
    (base ++ toString i).toList = base.toList ++ Nat.toDigits 10 i := by
  rw [String.toList_append, Nat.toString_eq_ofList_toDigits, String.toList_ofList]

theorem isDigit_of_mem_toDigits {i : Nat} {d : Char} (h : d ∈ Nat.toDigits 10 i) :
    Query.Scan.isDigit d := by
  have hdigit := Nat.isDigit_of_mem_toDigits (by decide) (by decide) h
  simpa [Char.isDigit, Query.Scan.isDigit, Char.le_def] using hdigit

theorem all_indexed {p : Char → Bool} (hp : ∀ d, Query.Scan.isDigit d → p d)
    (h : base.toList.all p) (i : Nat) : (base ++ toString i).toList.all p := by
  rw [toList_indexed, List.all_append, h, Bool.true_and]
  exact List.all_eq_true.mpr fun d hd => hp d (isDigit_of_mem_toDigits hd)

theorem head_indexed {p : Char → Bool} (h : base.toList.head?.any p) (i : Nat) :
    (base ++ toString i).toList.head?.any p := by
  rw [toList_indexed]
  cases hbase : base.toList with
  | nil =>
      rw [hbase] at h
      cases h
  | cons c cs =>
      rw [hbase] at h
      exact h

theorem isName_indexed (h : isName base) (i : Nat) : isName (base ++ toString i) := by
  rw [isName, Bool.and_eq_true] at h ⊢
  refine ⟨head_indexed h.1 i, all_indexed (fun d hd => ?_) h.2 i⟩
  rw [Query.Scan.isWordPart, hd, Bool.or_true]

theorem isParameterName_digits (h : isParameterName base) (i : Nat) :
    isParameterName (base ++ toString i) := by
  rw [isParameterName, Bool.and_eq_true] at h ⊢
  refine ⟨head_indexed h.1 i, all_indexed (fun d hd => ?_) h.2 i⟩
  rw [Query.Scan.isParameterPart, hd, Bool.or_true]

theorem isParameterName_indexed (h : isParameterName base) (taken : List String) :
    isParameterName (Text.Fresh.indexed base taken) := by
  obtain ⟨i, -, -, heq⟩ := Text.Fresh.exists_indexed base taken
  rw [heq]
  exact isParameterName_digits h i

theorem toUpper_of_isDigit {d : Char} (h : Query.Scan.isDigit d) : d.toUpper = d := by
  simp only [Query.Scan.isDigit, Bool.and_eq_true, decide_eq_true_eq, Char.le_def,
    UInt32.le_iff_toNat_le] at h
  apply dif_neg
  simp only [UInt32.le_iff_toNat_le]
  rintro ⟨hlow, -⟩
  simp only [Char.reduceVal, UInt32.reduceToNat] at h hlow
  omega

/-- No keyword has a digit. -/
theorem ofWord?_indexed (i : Nat) : Keyword.ofWord? (base ++ toString i) = none := by
  have hletters : ∀ k ∈ Keyword.all, k.text.toList.all fun c => !Query.Scan.isDigit c := by
    decide +kernel
  refine List.find?_eq_none.mpr fun k hk hspelled => ?_
  have htext := congrArg String.toList (beq_iff_eq.mp hspelled)
  rw [String.toUpper, String.toList_map, toList_indexed, List.map_append] at htext
  have hall := hletters k hk
  rw [htext, List.all_append, Bool.and_eq_true] at hall
  obtain ⟨d, hd⟩ := List.exists_mem_of_ne_nil _ (Nat.toDigits_ne_nil (b := 10) (n := i))
  have hdigit := isDigit_of_mem_toDigits hd
  have hnot := List.all_eq_true.mp hall.2 _ (List.mem_map_of_mem hd)
  rw [toUpper_of_isDigit hdigit, hdigit] at hnot
  cases hnot

theorem isVariable_indexed (h : isVariable base) (taken : List String) :
    isVariable (Text.Fresh.indexed base taken) := by
  obtain ⟨i, -, -, heq⟩ := Text.Fresh.exists_indexed base taken
  rw [heq, isVariable, ofWord?_indexed, Bool.and_eq_true]
  exact ⟨isName_indexed (Query.Grammar.isName_of_isVariable h) i, rfl⟩

end Names

/-! ## Derivable exchanges -/

/-- Names and from clauses are exchanged for some that are derived as well. -/
def Exchange.derivable : Exchange where
  atom t u := (Derives .reference t → Derives .reference u) ∧ (t.label.isLeaf → u = t)
  items is js := ∀ s, Derives .fromClause (.node .fromClause is s) →
    Derives .fromClause (.node .fromClause js s)

theorem derivable_derivable : Exchange.derivable.Derivable where
  reference h ht := h.1 ht
  leaf h hl ht := h.2 hl ▸ ht
  items s h hs := h s hs

theorem Query.Phrase.IsReference.not_isLeaf {t : Phrase} {x : String} {ws : List String}
    (h : t.IsReference x ws) : t.label.isLeaf = false := by
  cases h <;> rfl

/-- A reference exchanged for another one. -/
theorem recast_reference {t u : Phrase} {x : String} {ws : List String} (ht : t.IsReference x ws)
    (h : Derives .reference t → Derives .reference u) : Recast Exchange.derivable t u :=
  .atom (.reference ht) ⟨h, fun hleaf => by rw [ht.not_isLeaf] at hleaf; cases hleaf⟩

theorem Query.Phrase.Within.recast_self {P : String → Prop} {t : Phrase} (h : Within P t) :
    Recast Exchange.derivable t t := by
  induction h with
  | reference ht _ => exact recast_reference ht id
  | leaf s hl => exact .atom (.leaf s hl) ⟨id, fun _ => rfl⟩
  | @subselect P cs items rest distinct s₁ s₂ s₃ _ _ _ _ hfinal hselect hrest =>
      have hcs := recastAll_of_forall (f := id) hselect
      have hclauses := recastAll_of_forall (f := id) hrest
      rw [List.map_id] at hcs hclauses
      exact .subselect distinct s₁ s₂ s₃ (fun _ h => h) hcs hclauses hfinal
  | compound s hcompound _ ih =>
      have hall := recastAll_of_forall (f := id) ih
      rw [List.map_id] at hall
      exact .compound s hcompound hall

/-! ## Aliases kept apart -/

namespace Restriction

/-- A renaming that gives every variable the name of a variable. -/
def KeepsVariables (rename : String → String) : Prop := ∀ a, isVariable a → isVariable (rename a)

variable {rename : String → String} {taken : List String}

theorem keepsVariables_claim {r : Renaming} (h : KeepsVariables r.1) (name : String) :
    KeepsVariables (claim r name).1 := by
  unfold claim
  split
  · intro a ha
    simp only [thenRename]
    split
    · rename_i heq
      exact isVariable_indexed (heq ▸ h a ha) r.2
    · exact h a ha
  · exact h

theorem keepsVariables_insideOf (h : KeepsVariables rename) (taken : List String) (t : Phrase) :
    KeepsVariables (insideOf rename taken t).1 := by
  unfold insideOf
  split
  · generalize hr : (rename, taken) = r
    replace h : KeepsVariables r.1 := hr ▸ h
    clear hr
    induction t.declaredAliases.map rename generalizing r with
    | nil => exact h
    | cons d ds ih => exact ih (claim r d) (keepsVariables_claim h d)
  · exact h

theorem forall_separateAll {Q : Phrase → Prop} {ts : List Phrase}
    (h : ∀ t ∈ ts, ∀ taken, Q (separate rename taken t).1) (taken : List String) :
    ∀ u ∈ (separateAll rename taken ts).1, Q u := by
  induction ts generalizing taken with
  | nil => simp [separateAll]
  | cons t ts ih =>
      obtain ⟨ht, hts⟩ := List.forall_mem_cons.mp h
      rw [separateAll]
      exact List.forall_mem_cons.mpr ⟨ht taken, ih hts _⟩

theorem recastAll_separateAll {k : Exchange} {ts : List Phrase}
    (h : ∀ t ∈ ts, ∀ taken, Recast k t (separate rename taken t).1) (taken : List String) :
    RecastAll k ts (separateAll rename taken ts).1 := by
  induction ts generalizing taken with
  | nil => exact .nil
  | cons t ts ih =>
      obtain ⟨ht, hts⟩ := List.forall_mem_cons.mp h
      rw [separateAll]
      exact .cons (ht taken) (ih hts _)

theorem separateAll_segments {segments : List Phrase} {ws : List String}
    (h : AreSegments segments ws) (taken : List String) :
    separateAll rename taken segments = (segments, taken) := by
  induction h with
  | nil => rfl
  | @cons w segments ws span _ _ ih =>
      show (Phrase.node (.segment w) [] span :: (separateAll rename taken segments).1,
        (separateAll rename taken segments).2) = _
      rw [ih]

theorem derives_separate_reference {t : Phrase} (hrename : KeepsVariables rename)
    (h : Derives .reference t) (taken : List String) :
    Derives .reference (separate rename taken t).1 := by
  cases h with
  | name s hx => exact .name s (hrename _ hx)
  | @path x w ws segments r s hx hsegments hnames =>
      have hseparated : (separate rename taken (.node .path (.node (.identifier x) [] r :: segments)
          s)).1 = .node .path (.node (.identifier (rename x)) [] r :: segments) s := by
        rw [separate_node]
        simp only [insideOf, Phrase.label, reduceCtorEq, if_false, separateAll, renameLabel]
        rw [separateAll_segments hsegments]
        rfl
      rw [hseparated]
      exact .path r s (hrename _ hx) hsegments hnames

theorem derives_separate_join {t : Phrase} (hrename : KeepsVariables rename)
    (h : Derives .join t) (taken : List String) : Derives .join (separate rename taken t).1 := by
  cases h with
  | join outer fetch s hp => exact .join outer fetch s (derives_separate_reference hrename hp taken)
  | joinNamed outer fetch s r hp ha =>
      exact .joinNamed outer fetch s r (derives_separate_reference hrename hp taken) (hrename _ ha)

theorem derives_separate_fromItem {t : Phrase} (hrename : KeepsVariables rename)
    (h : Derives .fromItem t) (taken : List String) :
    Derives .fromItem (separate rename taken t).1 := by
  cases h with
  | fromItem s₁ s₂ s he ha hjoins =>
      exact .fromItem s₁ s₂ s he (hrename _ ha)
        (forall_separateAll (fun j hj => derives_separate_join hrename (hjoins j hj)) taken)

theorem derives_separate_items {items : List Phrase} (hrename : KeepsVariables rename)
    (taken : List String) :
    Exchange.derivable.items items (separateAll rename taken items).1 := by
  intro s h
  cases h with
  | fromClause s hitems =>
      exact .fromClause s (forall_separateAll
        (fun r hr => derives_separate_fromItem hrename (hitems r hr)) taken)

/-- Keeping aliases apart recasts a phrase. -/
theorem recast_separate {P : String → Prop} {t : Phrase} (h : Within P t)
    (hrename : KeepsVariables rename) (taken : List String) :
    Recast Exchange.derivable t (separate rename taken t).1 := by
  induction h generalizing rename taken with
  | reference ht _ =>
      exact recast_reference ht fun h => derives_separate_reference hrename h taken
  | @leaf _ l s hl =>
      have hlabel : renameLabel rename l = l := by cases l <;> first | rfl | cases hl
      rw [separate_node, hlabel]
      exact .atom (.leaf s hl) ⟨fun h => h, fun _ => rfl⟩
  | @subselect P cs items rest distinct s₁ s₂ s₃ _ _ _ _ hfinal hselect hrest =>
      have hinner := keepsVariables_insideOf hrename taken (.node .subselect
        (.node (.selectClause distinct) cs s₁ :: .node .fromClause items s₂ :: rest) s₃)
      rw [separate_node]
      exact .subselect distinct s₁ s₂ s₃ (derives_separate_items hinner _)
        (recastAll_separateAll (fun t ht => hselect t ht hinner) _)
        (recastAll_separateAll (fun t ht => hrest t ht hinner) _) hfinal
  | @compound _ l ts s hcompound _ ih =>
      have hlabel : renameLabel rename l = l := by cases l <;> first | rfl | cases hcompound
      have hinside : insideOf rename taken (.node l ts s) = (rename, taken) :=
        if_neg (by rintro rfl; cases hcompound)
      rw [separate_node, hlabel, hinside]
      exact .compound s hcompound (recastAll_separateAll (fun t ht => ih t ht hrename) taken)

/-! ## A path for the subject -/

section Substitution

variable {a : String} {r : Phrase}

theorem substituteAll_eq_map (ts : List Phrase) :
    substituteAll a r ts = ts.map (substitute a r) := by
  induction ts with
  | nil => rfl
  | cons t ts ih => rw [substituteAll, ih, List.map_cons]

theorem substitute_identifier (x : String) (s : Source.Span) :
    substitute a r (.node (.identifier x) [] s) =
      if x = a then r else .node (.identifier x) [] s := by
  rw [substitute]
  by_cases hx : x = a <;> simp [hx, substituteAll]

theorem derives_graft (hr : Derives .reference r) {segments : List Phrase} {w : String}
    {ws : List String} (s : Source.Span) (hsegments : AreSegments segments (w :: ws))
    (hnames : ∀ v ∈ w :: ws, isName v) :
    Derives .reference (.node .path (graft r ++ segments) s) := by
  cases hr with
  | name s' hx => exact .path s' s hx hsegments hnames
  | @path x v vs before r' s' hx hbefore hbefores =>
      refine .path r' s hx (hbefore.append hsegments) fun u hu => ?_
      rcases List.mem_append.mp (show u ∈ (v :: vs) ++ (w :: ws) from hu) with hu | hu
      · exact hbefores u hu
      · exact hnames u hu

theorem derives_substitute_reference {t : Phrase} (hr : Derives .reference r)
    (h : Derives .reference t) : Derives .reference (substitute a r t) := by
  cases h with
  | @name x s hx =>
      rw [substitute_identifier]
      split
      · exact hr
      · exact .name s hx
  | @path x w ws segments r' s hx hsegments hnames =>
      rw [substitute, if_neg (by simp), if_neg (by simp)]
      split
      · exact derives_graft hr s hsegments hnames
      · rename_i hroot
        have hother : x ≠ a := by
          rintro rfl
          exact hroot ⟨rfl, rfl⟩
        rw [substituteAll, substitute_identifier, if_neg hother, hsegments.substituteAll_eq]
        exact .path r' s hx hsegments hnames

/-- An alias in a from clause is not taken for the subject, unless it has its name. -/
theorem derives_substitute_join {t : Phrase} (hr : Derives .reference r) (h : Derives .join t)
    (ha : t.declaredAlias? ≠ some a) : Derives .join (substitute a r t) := by
  cases h with
  | join outer fetch s hp =>
      rw [substitute_of_not_path r (by simp) (by simp) (by simp)]
      exact .join outer fetch s (derives_substitute_reference hr hp)
  | @joinNamed p b outer fetch s r' hp hb =>
      have hother : b ≠ a := by
        rintro rfl
        exact ha rfl
      rw [substitute_of_not_path r (by simp) (by simp) (by simp), substituteAll, substituteAll,
        substitute_identifier, if_neg hother]
      exact .joinNamed outer fetch s r' (derives_substitute_reference hr hp) hb

theorem derives_substitute_fromItem {t : Phrase} (hr : Derives .reference r)
    (h : Derives .fromItem t) (ha : t.declaredAlias? ≠ some a)
    (hjoins : ∀ j ∈ t.children.drop 2, j.declaredAlias? ≠ some a) :
    Derives .fromItem (substitute a r t) := by
  cases h with
  | @fromItem e b js s₁ s₂ s he hb hjs =>
      have hother : b ≠ a := by
        rintro rfl
        exact ha rfl
      have hentity : substitute a r (.node (.entityName e) [] s₁) = .node (.entityName e) [] s₁ :=
        substitute_of_not_path r (by simp) (by simp) (by simp) [] s₁
      rw [substitute_of_not_path r (by simp) (by simp) (by simp), substituteAll, substituteAll,
        hentity, substitute_identifier, if_neg hother, substituteAll_eq_map]
      refine .fromItem s₁ s₂ s he hb fun j hj => ?_
      obtain ⟨i, hi, rfl⟩ := List.mem_map.mp hj
      exact derives_substitute_join hr (hjs i hi) (hjoins i hi)

theorem derives_substitute_items {items : List Phrase} (hr : Derives .reference r)
    (ha : a ∉ itemAliases items) : Exchange.derivable.items items (substituteAll a r items) := by
  rw [itemAliases, List.mem_append, not_or] at ha
  intro s h
  cases h with
  | @fromClause t ts s hitems =>
      rw [substituteAll_eq_map, List.map_cons]
      refine .fromClause s fun u hu => ?_
      obtain ⟨v, hv, rfl⟩ := List.mem_map.mp (List.map_cons ▸ hu)
      refine derives_substitute_fromItem hr (hitems v hv) (fun hdeclared => ha.1 ?_)
        fun j hj hdeclared => ha.2 ?_
      · exact List.mem_filterMap.mpr ⟨v, hv, hdeclared⟩
      · exact List.mem_filterMap.mpr ⟨j, List.mem_flatMap.mpr ⟨v, hv, hj⟩, hdeclared⟩

/-- Putting a path for a name recasts a phrase. -/
theorem recast_substitute {P : String → Prop} {t : Phrase} (h : Within P t)
    (hr : Derives .reference r) : Recast Exchange.derivable t (substitute a r t) := by
  induction h with
  | reference ht _ => exact recast_reference ht (derives_substitute_reference hr)
  | @leaf _ l s hl =>
      have hself : substitute a r (.node l [] s) = .node l [] s := by
        rw [substitute_of_not_path r] <;> first | rfl | (rintro rfl; cases hl)
      rw [hself]
      exact .atom (.leaf s hl) ⟨fun h => h, fun _ => rfl⟩
  | @subselect P cs items rest distinct s₁ s₂ s₃ hitems hjoins hcs hclauses hfinal hselect hrest =>
      by_cases ha : a ∈ declaredAliases (.node .subselect (.node (.selectClause distinct) cs s₁
          :: .node .fromClause items s₂ :: rest) s₃)
      · rw [substitute_of_declares rfl ha]
        exact (Within.subselect distinct s₁ s₂ s₃ hitems hjoins hcs hclauses hfinal).recast_self
      · rw [substitute_subselect ha, substituteAll_eq_map cs, substituteAll_eq_map rest]
        rw [declaredAliases_subselect] at ha
        exact .subselect distinct s₁ s₂ s₃ (derives_substitute_items hr ha)
          (recastAll_of_forall hselect) (recastAll_of_forall hrest) hfinal
  | @compound _ l ts s hcompound _ ih =>
      rw [substitute_of_not_path r (by rintro rfl; cases hcompound)
        (by rintro rfl; cases hcompound) (by rintro rfl; cases hcompound), substituteAll_eq_map]
      exact .compound s hcompound (recastAll_of_forall ih)

end Substitution

/-! ## Parameters for the context -/

/-- The names that have been made are names of parameters, where what they start with is,
and there are as many for the roles as there are roles. -/
structure Legible (c : SecurityContext) (state : ContextParameters) : Prop where
  made : ∀ source name, state.made.lookup source = some name →
    isParameterName source.base → isParameterName name
  roles : ∀ names, state.roles? = some names →
    names.length = c.roles.length ∧ ∀ name ∈ names, isParameterName name

theorem legible_start (c : SecurityContext) (taken : List String) : Legible c { taken } where
  made _ _ h := nomatch h
  roles _ h := nomatch h

/-- A step of the binding keeps all names legible and gives something with a property. -/
def Writes {α : Type} (c : SecurityContext) (b : Binder α) (Q : α → Prop) : Prop :=
  ∀ state, Legible c state → Q (b.run state).1 ∧ Legible c (b.run state).2

namespace Writes

variable {c : SecurityContext} {α β : Type} {b : Binder α} {Q R : α → Prop}

theorem pure {x : α} (h : Q x) : Writes c (pure x) Q := fun _ hstate => ⟨h, hstate⟩

theorem bind {f : α → Binder β} {S : β → Prop} (h : Writes c b Q)
    (hnext : ∀ x, Q x → Writes c (f x) S) : Writes c (b >>= f) S := by
  intro state hstate
  obtain ⟨hx, hstate'⟩ := h state hstate
  exact hnext _ hx _ hstate'

theorem mono (h : Writes c b Q) (hQR : ∀ x, Q x → R x) : Writes c b R :=
  fun state hstate => ⟨hQR _ (h state hstate).1, (h state hstate).2⟩

end Writes

variable {c : SecurityContext}

theorem writes_newParameter (base : String) (v : Value) :
    Writes c (newParameter base v) fun name => isParameterName base → isParameterName name :=
  fun state hstate => ⟨fun h => isParameterName_indexed h state.taken, hstate.made, hstate.roles⟩

theorem writes_parameterFor (source : Source) :
    Writes c (parameterFor c source) fun t => ∃ name, t = namedParameter name ∧
      (isParameterName source.base → isParameterName name) := by
  intro state hstate
  cases hmade : state.made.lookup source with
  | some name =>
      rw [run_parameterFor_of_made hmade]
      exact ⟨⟨name, rfl, hstate.made source name hmade⟩, hstate⟩
  | none =>
      rw [run_parameterFor_of_new hmade]
      obtain ⟨hname, hstate'⟩ := writes_newParameter source.base (source.value c) state hstate
      refine ⟨⟨_, rfl, hname⟩, fun other name h => ?_, hstate'.roles⟩
      rw [List.lookup_cons] at h
      split at h
      · rename_i heq
        cases h
        rw [eq_of_beq heq]
        exact hname
      · exact hstate'.made other name h

theorem writes_mapM (roles : List Value) :
    Writes c (roles.mapM (newParameter roleBase)) fun names =>
      names.length = roles.length ∧ ∀ name ∈ names, isParameterName name := by
  induction roles with
  | nil => exact .pure ⟨rfl, by simp⟩
  | cons role roles ih =>
      rw [List.mapM_cons]
      refine (writes_newParameter roleBase role).bind fun name hname => ih.bind fun names hnames =>
        .pure ⟨by simp [hnames.1], List.forall_mem_cons.mpr ⟨hname (by decide), hnames.2⟩⟩

theorem writes_roleParameters (hroles : c.roles.isEmpty = false) :
    Writes c (roleParameters c) fun ts => ∃ names : List String,
      ts = names.map namedParameter ∧ names ≠ [] ∧ ∀ name ∈ names, isParameterName name := by
  have hsome : ∀ {names : List String}, names.length = c.roles.length → names ≠ [] := by
    rintro names hlength rfl
    rw [List.isEmpty_eq_false_iff] at hroles
    exact hroles (List.length_eq_zero_iff.mp hlength.symm)
  intro state hstate
  cases hmade : state.roles? with
  | some names =>
      rw [run_roleParameters_of_made hmade]
      obtain ⟨hlength, hlegal⟩ := hstate.roles names hmade
      exact ⟨⟨names, rfl, hsome hlength, hlegal⟩, hstate⟩
  | none =>
      rw [run_roleParameters_of_new hmade]
      obtain ⟨⟨hlength, hlegal⟩, hstate'⟩ := writes_mapM c.roles state hstate
      refine ⟨⟨_, rfl, hsome hlength, hlegal⟩, hstate'.made, fun names h => ?_⟩
      cases h
      exact ⟨hlength, hlegal⟩

end Restriction

/-- Parameters are put for parts of the context and for other parameters. -/
def Exchange.parameters : Exchange where
  atom t u := u = t ∨ t.label.isLeaf ∧ ∃ name, u = namedParameter name ∧
    ((∀ old, t.label = .namedParameter old → isParameterName old) → isParameterName name)
  items is js := js = is

theorem Query.Grammar.isParameterName_of_derives {name : String} {s : Source.Span}
    (h : Derives .primary (.node (.namedParameter name) [] s)) : isParameterName name := by
  generalize ht : Phrase.node (.namedParameter name) [] s = t at h
  cases h with
  | @literal token l s' hlegal hl =>
      cases ht
      cases token <;> cases hl
      exact hlegal
  | @keyword k _ _ hl =>
      cases ht
      cases k <;> cases hl
  | reference h => cases h <;> cases ht
  | subselect h => cases h; cases ht
  | @call _ f ts s' hf _ _ =>
      have hlabel : f.label = .namedParameter name := congrArg Phrase.label ht.symm
      have hrigid := Query.Grammar.isRigid_of_signature? hf
      rw [hlabel] at hrigid
      cases hrigid
  | brackets | aggregate | trim | trimOff => cases ht

theorem derivable_parameters : Exchange.parameters.Derivable where
  reference {t u} h ht := by
    rcases h with rfl | ⟨hleaf, -⟩
    · exact ht
    · cases ht <;> cases hleaf
  leaf {l s u} h _ ht := by
    rcases h with rfl | ⟨-, name, rfl, hname⟩
    · exact ht
    · refine Query.Grammar.derives_namedParameter (hname fun old hold => ?_)
      rw [show l = .namedParameter old from hold] at ht
      exact Query.Grammar.isParameterName_of_derives ht
  items s h hs := h ▸ hs

namespace Restriction

variable {c : SecurityContext}

theorem writes_bindContextAll {k : Exchange} {ts : List Phrase}
    (h : ∀ t ∈ ts, Writes c (bindContext c t) (Recast k t)) :
    Writes c (bindContextAll c ts) (RecastAll k ts) := by
  induction ts with
  | nil => exact .pure .nil
  | cons t ts ih =>
      obtain ⟨ht, hts⟩ := List.forall_mem_cons.mp h
      rw [bindContextAll]
      exact ht.bind fun u hu => (ih hts).bind fun us hus => .pure (.cons hu hus)

theorem writes_leaf {l : Label} (hl : l.isLeaf) (s : Source.Span) :
    Writes c (bindContext c (.node l [] s)) (Recast Exchange.parameters (.node l [] s)) := by
  by_cases hparameter : isParameter l = true
  · have hmade : ∀ {source : Source}, (∀ old, l = .namedParameter old → source.base = old) →
        ((∀ old, l ≠ .namedParameter old) → isParameterName source.base) →
        Writes c (parameterFor c source) (Recast Exchange.parameters (.node l [] s)) := by
      intro source hsame hlegal
      refine (writes_parameterFor source).mono ?_
      rintro u ⟨name, rfl, hname⟩
      refine .atom (.leaf s hl) (Or.inr ⟨hl, name, rfl, fun hold => hname ?_⟩)
      by_cases hnamed : ∃ old, l = .namedParameter old
      · obtain ⟨old, rfl⟩ := hnamed
        exact hsame old rfl ▸ hold old rfl
      · exact hlegal fun old heq => hnamed ⟨old, heq⟩
    cases l with
    | context item =>
        rw [bindContext]
        exact hmade (by simp) fun _ => by cases item <;> decide
    | namedParameter old =>
        rw [bindContext]
        exact hmade (fun _ heq => by cases heq; rfl) fun hne => absurd rfl (hne old)
    | _ => cases hparameter
  · rw [bindContext_node (by simpa using hparameter) (by rintro ⟨⟩)]
    exact .pure (.atom (.leaf s hl) (Or.inl rfl))

/-- Binding the context recasts a phrase. -/
theorem writes_bindContext {P : String → Prop} {t : Phrase} (h : Within P t) :
    Writes c (bindContext c t) (Recast Exchange.parameters t) := by
  induction h with
  | reference ht _ =>
      rw [ht.names.unchanged.2]
      exact .pure (.atom (.reference ht) (Or.inl rfl))
  | leaf s hl => exact writes_leaf hl s
  | @subselect P cs items rest distinct s₁ s₂ s₃ hitems hjoins _ _ hfinal hselect hrest =>
      rw [bindContext_node rfl (not_askRoles_of_isCompound (by simp) _),
        bindContextAll_clauses (names_of_items hitems (Query.Grammar.isJoin_of_joinsWithin hjoins))]
      simp only [bind_assoc, pure_bind]
      exact (writes_bindContextAll hselect).bind fun ds hds =>
        (writes_bindContextAll hrest).bind fun rest' hrest' =>
          .pure (.subselect distinct s₁ s₂ s₃ rfl hds hrest' hfinal)
  | @compound P l ts s hcompound hts ih =>
      by_cases hask : AskRoles l ts
      · obtain ⟨t, ds, r⟩ := hask
        cases hroles : c.roles.isEmpty with
        | true =>
            rw [bindContext_isIn_of_no_roles hroles]
            exact .pure (.never t ds r s)
        | false =>
            rw [bindContext_isIn hroles]
            refine (writes_roleParameters hroles).bind fun us hus =>
              (ih t (by simp)).bind fun u hu => ?_
            obtain ⟨names, rfl, hne, hlegal⟩ := hus
            exact .pure (.roles ds r s hu hne hlegal)
      · have hparameter : isParameter l = false := by
          cases l <;> first | rfl | cases hcompound
        rw [bindContext_node hparameter hask]
        exact (writes_bindContextAll ih).bind fun us hus => .pure (.compound s hcompound hus)

/-! ## One rule -/

/-- What the condition of a rule may become for a path, as it is written. -/
inductive Puts (c : SecurityContext) (taken : List String) (path : String) (r : AccessRule) :
    Phrase → Prop
  | granted : r.condition? = none → Puts c taken path r (build (.booleanLiteral true) [])
  | unbindable {condition : Phrase} : r.condition? = some condition →
      isUnbindable c condition = true → Puts c taken path r alwaysFalse
  | bound {condition t : Phrase} : r.condition? = some condition →
      isUnbindable c condition = false →
      Recast Exchange.parameters (substitute r.subject (ofDotted path)
        (separate id taken condition).1) t → Puts c taken path r t

variable {taken : List String} {path : String} {r : AccessRule}

/-- The condition of a rule with a path for its subject. -/
theorem derives_placed {condition : Phrase} (h : Derives .condition condition)
    (hpath : Derives .reference (ofDotted path)) (subject : String) (taken : List String) :
    Derives .condition (substitute subject (ofDotted path) (separate id taken condition).1) := by
  have hid : KeepsVariables id := fun _ ha => ha
  have happart := h.recast derivable_derivable (recast_separate h.shapes hid taken)
  exact happart.recast derivable_derivable (recast_substitute happart.shapes hpath)

theorem Puts.derives {t : Phrase} (h : Puts c taken path r t)
    (hpath : Derives .reference (ofDotted path))
    (hcondition : ∀ condition, r.condition? = some condition → Derives .condition condition) :
    Derives .condition t := by
  cases h with
  | granted => exact .term (.factor (Query.Grammar.derives_factor_of_sum
      (Query.Grammar.derives_sum_of_primary (.keyword (k := .true_) _ rfl))))
  | unbindable => exact .term (.factor Query.Grammar.derives_alwaysFalse)
  | bound hsome _ hrecast =>
      exact (derives_placed (hcondition _ hsome) hpath r.subject taken).recast
        derivable_parameters hrecast

theorem writes_instantiate (hpath : Derives .reference (ofDotted path))
    (hcondition : ∀ condition, r.condition? = some condition → Derives .condition condition) :
    Writes c (instantiate c taken path r) (Puts c taken path r) := by
  unfold instantiate
  cases hsome : r.condition? with
  | none => exact .pure (.granted hsome)
  | some condition =>
      cases hbindable : isUnbindable c condition with
      | true =>
          simp only [hbindable, if_true]
          exact .pure (.unbindable hsome hbindable)
      | false =>
          simp only [hbindable, Bool.false_eq_true, if_false]
          have hplaced := derives_placed (hcondition condition hsome) hpath r.subject taken
          exact (writes_bindContext (P := fun _ => True) hplaced.shapes).mono
            fun u hu => .bound hsome hbindable hu

/-! ## All rules -/

variable {ev : Evaluator} {now : Timestamp} {rules : List AccessRule}
  {state final : ContextParameters}

theorem Instantiated.writes {Q : AccessRule → Phrase → Prop} {cs : List Phrase}
    (h : Instantiated ev c now taken path rules state cs final)
    (hwrites : ∀ r ∈ rules, Writes c (instantiate c taken path r) (Q r))
    (hstate : Legible c state) :
    Legible c final ∧
      ∀ t ∈ cs, ∃ r ∈ rules, (verdict ev c now r).outcome = .ok .depends ∧ Q r t := by
  induction h with
  | nil state => exact ⟨hstate, by simp⟩
  | @denied r rest state final cs _ _ ih =>
      obtain ⟨hfinal, hmade⟩ := ih (fun r hr => hwrites r (List.mem_cons_of_mem _ hr)) hstate
      refine ⟨hfinal, fun t ht => ?_⟩
      obtain ⟨g, hg, hq⟩ := hmade t ht
      exact ⟨g, List.mem_cons_of_mem _ hg, hq⟩
  | @depends r rest state between final t cs hverdict hrun _ ih =>
      obtain ⟨hq, hbetween⟩ := hwrites r (by simp) state hstate
      rw [hrun] at hq hbetween
      obtain ⟨hfinal, hmade⟩ := ih (fun r hr => hwrites r (List.mem_cons_of_mem _ hr)) hbetween
      refine ⟨hfinal, List.forall_mem_cons.mpr ⟨⟨r, by simp, hverdict, hq⟩, fun u hu => ?_⟩⟩
      obtain ⟨g, hg, hq⟩ := hmade u hu
      exact ⟨g, List.mem_cons_of_mem _ hg, hq⟩

variable {policy : Policy} {kind : AccessKind} {paths : List (String × String)}

/-- Each condition that is asked for is one of those that the rules for a path leave. -/
theorem Restricted.writes {Q : String × String → AccessRule → Phrase → Prop}
    {found : List Phrase} (h : Restricted ev policy kind c now taken paths state found final)
    (hwrites : ∀ p ∈ paths, ∀ r ∈ policy.rulesForType ev.mapping p.2 kind,
      Writes c (instantiate c taken p.1 r) (Q p r))
    (hstate : Legible c state) :
    ∀ u ∈ found, ∃ p ∈ paths, ∃ cs, u = anyOf cs ∧ cs ≠ [] ∧
      ∀ t ∈ cs, ∃ r ∈ policy.rulesForType ev.mapping p.2 kind,
        (verdict ev c now r).outcome = .ok .depends ∧ Q p r t := by
  induction h with
  | nil => simp
  | @granted path type rest state between final found hgranted _ ih =>
      obtain ⟨earlier, r, later, cs, heq, -, hearlier⟩ := hgranted
      have hhead := hwrites (path, type) (by simp)
      simp only [heq] at hhead
      obtain ⟨hbetween, -⟩ :=
        hearlier.writes (fun r hr => hhead r (List.mem_append_left _ hr)) hstate
      intro u hu
      obtain ⟨p, hp, hmade⟩ := ih (fun p hp => hwrites p (List.mem_cons_of_mem _ hp)) hbetween u hu
      exact ⟨p, List.mem_cons_of_mem _ hp, hmade⟩
  | @required path type rest state between final cs found hne hmade _ ih =>
      obtain ⟨hbetween, hrules⟩ := hmade.writes (hwrites (path, type) (by simp)) hstate
      refine List.forall_mem_cons.mpr ⟨⟨(path, type), by simp, cs, rfl, hne, hrules⟩, fun u hu => ?_⟩
      obtain ⟨p, hp, hrest⟩ := ih (fun p hp => hwrites p (List.mem_cons_of_mem _ hp)) hbetween u hu
      exact ⟨p, List.mem_cons_of_mem _ hp, hrest⟩

end Restriction

end RowGuard
