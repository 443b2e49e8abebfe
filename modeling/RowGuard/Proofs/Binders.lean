import RowGuard.Proofs.Bindings
import RowGuard.Proofs.FreshNames
import RowGuard.Restriction.ContextParameters

/-!
# Parameters for the security context

Every parameter that a restriction brings in has a name of its own and keeps its
value from then on.  So what is known of the parameters when a phrase is bound
still holds of all parameters in the end, and each step of the binding can be
looked at by itself.
-/

namespace RowGuard

namespace Bindings

variable {α : Type} {bs more : Bindings α} {name : String} {value : α}

/-- Whatever the one bindings hold, the others hold as well. -/
def Extends (bs more : Bindings α) : Prop :=
  ∀ name value, bs.find? name = some value → more.find? name = some value

theorem Extends.refl (bs : Bindings α) : bs.Extends bs := fun _ _ h => h

theorem Extends.trans {further : Bindings α} (h : bs.Extends more)
    (h' : more.Extends further) : bs.Extends further :=
  fun name value hvalue => h' name value (h name value hvalue)

/-- Names that hold some values go on to hold them. -/
theorem Extends.map_find? (h : bs.Extends more) {names : List String} {values : List α}
    (hvalues : names.map bs.find? = values.map some) :
    names.map more.find? = values.map some := by
  rw [← hvalues]
  refine List.map_congr_left fun name hname => ?_
  have hmem : bs.find? name ∈ values.map some := hvalues ▸ List.mem_map_of_mem hname
  obtain ⟨value, -, hvalue⟩ := List.mem_map.mp hmem
  rw [← hvalue]
  exact h name value hvalue.symm

theorem find?_eq_none (hname : name ∉ bs.names) : bs.find? name = none := by
  induction bs with
  | nil => rfl
  | cons b bs ih =>
      simp only [names, List.map_cons, List.mem_cons, not_or] at hname
      have hne : (name == b.1) = false := beq_false_of_ne hname.1
      rw [find?, List.lookup_cons, hne]
      exact ih hname.2

theorem mem_names_of_find? (h : bs.find? name = some value) : name ∈ bs.names := by
  by_contra hname
  rw [find?_eq_none hname] at h
  cases h

theorem bind_of_not_mem (hname : name ∉ bs.names) (value : α) :
    bs.bind name value = bs ++ [(name, value)] := by
  induction bs with
  | nil => rfl
  | cons b bs ih =>
      simp only [names, List.map_cons, List.mem_cons, not_or] at hname
      have hne : (name == b.1) = false := beq_false_of_ne hname.1
      obtain ⟨n, v⟩ := b
      rw [bind, if_neg (by simp [hname.1]), ih hname.2]
      rfl

theorem extends_bind (hname : name ∉ bs.names) (value : α) : bs.Extends (bs.bind name value) := by
  intro other v hv
  have hne : other ≠ name := by
    rintro rfl
    exact hname (mem_names_of_find? hv)
  rw [find?_bind_of_ne bs value hne]
  exact hv

theorem names_bind (hname : name ∉ bs.names) (value : α) :
    (bs.bind name value).names = bs.names ++ [name] := by
  rw [bind_of_not_mem hname]
  simp [names]

theorem mem_names_bind (bs : Bindings α) (name : String) (value : α) {other : String} :
    other ∈ (bs.bind name value).names ↔ other = name ∨ other ∈ bs.names := by
  induction bs with
  | nil => simp [bind, names]
  | cons b bs ih =>
      obtain ⟨n, v⟩ := b
      by_cases hname : name = n
      · subst hname
        simp [bind, names]
      · simp only [names] at ih
        simp [bind, names, hname, ih, or_left_comm]

/-- Bindings of different names are all found again when they are bound on top. -/
theorem find?_bindAll (hmore : more.names.Nodup) (name : String) :
    (bs.bindAll more).find? name = (more.find? name).or (bs.find? name) := by
  induction more generalizing bs with
  | nil => rfl
  | cons b more ih =>
      obtain ⟨n, v⟩ := b
      simp only [names, List.map_cons, List.nodup_cons] at hmore
      show ((bs.bind n v).bindAll more).find? name = _
      rw [ih hmore.2]
      by_cases hn : name = n
      · subst hn
        rw [find?_eq_none hmore.1, find?_bind_self]
        simp [find?]
      · have hne : (name == n) = false := beq_false_of_ne hn
        rw [find?_bind_of_ne bs v hn]
        simp [find?, List.lookup_cons, hne]

end Bindings

namespace Restriction

variable {c : SecurityContext} {before : List String} {α β : Type}

/-- Parameters that hold what they were made for, none of them under a name from before. -/
structure Faithful (c : SecurityContext) (before : List String) (state : ContextParameters) :
    Prop where
  made : ∀ source name, state.made.lookup source = some name →
    state.values.find? name = some (source.value c)
  roles : ∀ names, state.roles? = some names →
    names.map state.values.find? = c.roles.map some
  taken : ∀ name ∈ before ++ state.values.names, name ∈ state.taken
  fresh : ∀ name ∈ state.values.names, name ∉ before
  nodup : state.values.names.Nodup

theorem faithful_start (c : SecurityContext) (before : List String) :
    Faithful c before { taken := before } where
  made _ _ h := nomatch h
  roles _ h := nomatch h
  taken _ h := by simpa [Bindings.names] using h
  fresh _ h := nomatch h
  nodup := List.nodup_nil

/-- A step of the binding keeps the parameters faithful, and what it gives is as it
should be as long as the values that were bound then are. -/
def Binds (c : SecurityContext) (before : List String) (b : Binder α)
    (Q : Bindings Value → α → Prop) : Prop :=
  ∀ state, Faithful c before state → Faithful c before (b.run state).2 ∧
    state.values.Extends (b.run state).2.values ∧
    ∀ values : Bindings Value, (b.run state).2.values.Extends values → Q values (b.run state).1

namespace Binds

variable {b : Binder α} {Q R : Bindings Value → α → Prop}

theorem pure {a : α} (h : ∀ values, Q values a) : Binds c before (pure a) Q :=
  fun state hstate => ⟨hstate, Bindings.Extends.refl state.values, fun values _ => h values⟩

theorem bind {f : α → Binder β} {S : Bindings Value → β → Prop} (h : Binds c before b Q)
    (hnext : ∀ a, Binds c before (f a) fun values r => Q values a → S values r) :
    Binds c before (b >>= f) S := by
  intro state hstate
  obtain ⟨hfaithful, hextends, hQ⟩ := h state hstate
  obtain ⟨hfaithful', hextends', hS⟩ := hnext (b.run state).1 (b.run state).2 hfaithful
  exact ⟨hfaithful', hextends.trans hextends', fun values hvalues =>
    hS values hvalues (hQ values (hextends'.trans hvalues))⟩

theorem mono (h : Binds c before b Q) (hQR : ∀ values a, Q values a → R values a) :
    Binds c before b R := by
  intro state hstate
  obtain ⟨hfaithful, hextends, hQ⟩ := h state hstate
  exact ⟨hfaithful, hextends, fun values hvalues => hQR values _ (hQ values hvalues)⟩

end Binds

/-- A new parameter holds its value. -/
theorem binds_newParameter (base : String) (v : Value) :
    Binds c before (newParameter base v) fun values name => values.find? name = some v := by
  intro state hstate
  have hfree := Text.Fresh.indexed_not_mem base state.taken
  have hnew : Text.Fresh.indexed base state.taken ∉ state.values.names := fun hmem =>
    hfree (hstate.taken _ (List.mem_append_right before hmem))
  have hextends := Bindings.extends_bind hnew v
  refine ⟨⟨fun source name h => hextends _ _ (hstate.made source name h),
    fun names h => hextends.map_find? (hstate.roles names h), fun name hname => ?_,
    fun name hname => ?_, ?_⟩, hextends, fun values hvalues =>
    hvalues _ _ (Bindings.find?_bind_self _ _ _)⟩
  · show name ∈ _ :: state.taken
    change name ∈ before ++ (state.values.bind _ v).names at hname
    rw [Bindings.names_bind hnew, ← List.append_assoc] at hname
    rcases List.mem_append.mp hname with hname | hname
    · exact List.mem_cons_of_mem _ (hstate.taken name hname)
    · simp [List.mem_singleton.mp hname]
  · change name ∈ (state.values.bind _ v).names at hname
    rw [Bindings.names_bind hnew] at hname
    rcases List.mem_append.mp hname with hname | hname
    · exact hstate.fresh name hname
    · rw [List.mem_singleton.mp hname]
      exact fun hmem => hfree (hstate.taken _ (List.mem_append_left _ hmem))
  · show (state.values.bind _ v).names.Nodup
    rw [Bindings.names_bind hnew]
    exact List.nodup_append.mpr ⟨hstate.nodup, by simp, by
      intro a ha d hd
      rw [List.mem_singleton.mp hd]
      exact fun heq => hnew (heq ▸ ha)⟩

/-! ## Making a parameter or finding it -/

section Runs

variable {state : ContextParameters}

theorem run_parameterFor_of_made {source : Source} {name : String}
    (h : state.made.lookup source = some name) :
    (parameterFor c source).run state = (Query.Phrase.namedParameter name, state) := by
  simp only [parameterFor, StateT.run_bind, StateT.run_get, pure_bind, h]
  rfl

theorem run_parameterFor_of_new {source : Source} (h : state.made.lookup source = none) :
    (parameterFor c source).run state =
      (Query.Phrase.namedParameter ((newParameter source.base (source.value c)).run state).1,
        { ((newParameter source.base (source.value c)).run state).2 with
          made := (source, ((newParameter source.base (source.value c)).run state).1) ::
            ((newParameter source.base (source.value c)).run state).2.made }) := by
  simp only [parameterFor, StateT.run_bind, StateT.run_get, pure_bind, h]
  rfl

theorem run_roleParameters_of_made {names : List String} (h : state.roles? = some names) :
    (roleParameters c).run state = (names.map Query.Phrase.namedParameter, state) := by
  simp only [roleParameters, StateT.run_bind, StateT.run_get, pure_bind, h]
  rfl

theorem run_roleParameters_of_new (h : state.roles? = none) :
    (roleParameters c).run state =
      (((c.roles.mapM (newParameter roleBase)).run state).1.map Query.Phrase.namedParameter,
        { ((c.roles.mapM (newParameter roleBase)).run state).2 with
          roles? := some ((c.roles.mapM (newParameter roleBase)).run state).1 }) := by
  simp only [roleParameters, StateT.run_bind, StateT.run_get, pure_bind, h]
  rfl

end Runs

/-- A part of the context is bound to its own parameter, which is made once. -/
theorem binds_parameterFor (source : Source) :
    Binds c before (parameterFor c source) fun values t =>
      ∃ name, t = Query.Phrase.namedParameter name ∧
        values.find? name = some (source.value c) := by
  intro state hstate
  cases hmade : state.made.lookup source with
  | some name =>
      rw [run_parameterFor_of_made hmade]
      exact ⟨hstate, Bindings.Extends.refl _, fun values hvalues =>
        ⟨name, rfl, hvalues _ _ (hstate.made source name hmade)⟩⟩
  | none =>
      rw [run_parameterFor_of_new hmade]
      obtain ⟨hfaithful, hextends, hheld⟩ :=
        binds_newParameter source.base (source.value c) state hstate
      refine ⟨{ hfaithful with made := fun other name h => ?_ }, hextends, fun values hvalues =>
        ⟨_, rfl, hheld values hvalues⟩⟩
      rw [List.lookup_cons] at h
      split at h
      · rename_i heq
        cases h
        rw [eq_of_beq heq]
        exact hheld _ (Bindings.Extends.refl _)
      · exact hfaithful.made other name h

theorem binds_mapM (roles : List Value) :
    Binds c before (roles.mapM (newParameter roleBase)) fun values names =>
      names.map values.find? = roles.map some := by
  induction roles with
  | nil => exact .pure fun values => rfl
  | cons role roles ih =>
      rw [List.mapM_cons]
      refine Binds.bind (binds_newParameter roleBase role) fun name => ?_
      refine Binds.bind ih fun names => .pure fun values hnames hname => ?_
      rw [List.map_cons, List.map_cons, hname, hnames]

/-- The roles are bound to as many parameters, which are made once. -/
theorem binds_roleParameters :
    Binds c before (roleParameters c) fun values ts =>
      ∃ names : List String, ts = names.map Query.Phrase.namedParameter ∧
        names.map values.find? = c.roles.map some := by
  intro state hstate
  cases hmade : state.roles? with
  | some names =>
      rw [run_roleParameters_of_made hmade]
      exact ⟨hstate, Bindings.Extends.refl _, fun values hvalues =>
        ⟨names, rfl, hvalues.map_find? (hstate.roles names hmade)⟩⟩
  | none =>
      rw [run_roleParameters_of_new hmade]
      obtain ⟨hfaithful, hextends, hheld⟩ := binds_mapM c.roles state hstate
      refine ⟨{ hfaithful with roles := fun names h => ?_ }, hextends, fun values hvalues =>
        ⟨_, rfl, hheld values hvalues⟩⟩
      cases h
      exact hheld _ (Bindings.Extends.refl _)

end Restriction

end RowGuard
