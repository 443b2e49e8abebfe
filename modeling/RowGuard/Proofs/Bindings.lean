import RowGuard.Evaluation.Environment
import RowGuard.Query.Scope

/-!
# What a name holds

A name is looked up from the front of the bindings when its value is asked for
and from the back when its type is.  Both answers are read off the values that
the bindings hold under the name, so two environments treat a name alike as
soon as they hold the same under it.
-/

namespace RowGuard

namespace Bindings

variable {α : Type}

/-- The values under a name, in their order. -/
def held (bs : Bindings α) (name : String) : List α :=
  (bs.filter fun b => b.1 == name).map Prod.snd

@[simp]
theorem held_nil (name : String) : held ([] : Bindings α) name = [] := rfl

theorem held_cons_self (bs : Bindings α) (name : String) (value : α) :
    held ((name, value) :: bs) name = value :: bs.held name := by
  simp [held]

theorem held_cons_of_ne (bs : Bindings α) {name other : String} (value : α)
    (hne : name ≠ other) : held ((name, value) :: bs) other = bs.held other := by
  simp [held, hne]

theorem find?_eq_head?_held (bs : Bindings α) (name : String) :
    bs.find? name = (bs.held name).head? := by
  induction bs with
  | nil => rfl
  | cons b bs ih =>
      obtain ⟨n, value⟩ := b
      by_cases hn : n = name
      · subst hn
        rw [held_cons_self]
        exact List.lookup_cons_self
      · have hneq : (name == n) = false := beq_false_of_ne (Ne.symm hn)
        rw [held_cons_of_ne bs value hn, ← ih]
        simp [find?, List.lookup_cons, hneq]

/-- Binding a name replaces the first value under it. -/
theorem held_bind_self (bs : Bindings α) (name : String) (value : α) :
    (bs.bind name value).held name = value :: (bs.held name).tail := by
  induction bs with
  | nil => simp [bind, held]
  | cons b bs ih =>
      obtain ⟨n, old⟩ := b
      by_cases hn : n = name
      · subst hn
        simp [bind, held_cons_self]
      · simp only [bind, beq_iff_eq, Ne.symm hn, if_false]
        rw [held_cons_of_ne _ _ hn, held_cons_of_ne _ _ hn, ih]

theorem held_bind_of_ne (bs : Bindings α) {name other : String} (value : α)
    (hne : name ≠ other) : (bs.bind name value).held other = bs.held other := by
  induction bs with
  | nil => simp [bind, held, hne]
  | cons b bs ih =>
      obtain ⟨n, old⟩ := b
      by_cases hn : name = n
      · subst hn
        simp only [bind, beq_self_eq_true, if_true]
        rw [held_cons_of_ne _ _ hne, held_cons_of_ne _ _ hne]
      · simp only [bind, beq_iff_eq, hn, if_false]
        by_cases hother : n = other
        · subst hother
          rw [held_cons_self, held_cons_self, ih]
        · rw [held_cons_of_ne _ _ hother, held_cons_of_ne _ _ hother, ih]

theorem held_bindAll_of_not_mem (bs more : Bindings α) {name : String}
    (hfree : name ∉ more.names) : (bs.bindAll more).held name = bs.held name := by
  induction more generalizing bs with
  | nil => rfl
  | cons b more ih =>
      simp only [names, List.map_cons, List.mem_cons, not_or] at hfree
      show ((bs.bind b.1 b.2).bindAll more).held name = _
      rw [ih _ hfree.2, held_bind_of_ne _ _ (Ne.symm hfree.1)]

theorem held_unbind (bs : Bindings α) (gone name : String) :
    (bs.unbind gone).held name = if name = gone then [] else bs.held name := by
  unfold unbind held
  rw [List.filter_filter]
  by_cases hname : name = gone
  · subst hname
    simp
  · rw [if_neg hname]
    congr 1
    refine List.filter_congr fun b _ => ?_
    by_cases hb : b.1 = name
    · simp [hb, hname]
    · simp [hb]

theorem held_unbindAll (bs : Bindings α) (gone : List String) (name : String) :
    (bs.unbindAll gone).held name = if name ∈ gone then [] else bs.held name := by
  induction gone generalizing bs with
  | nil => simp [unbindAll]
  | cons first gone ih =>
      show ((bs.unbind first).unbindAll gone).held name = _
      rw [ih, held_unbind]
      by_cases hfirst : name = first
      · simp [hfirst]
      · by_cases hgone : name ∈ gone <;> simp [hfirst, hgone]

/-- Bindings made one after the other from nothing hold each name at most once. -/
theorem length_held_bindAll_le (bs more : Bindings α) (name : String)
    (honce : (bs.held name).length ≤ 1) : ((bs.bindAll more).held name).length ≤ 1 := by
  induction more generalizing bs with
  | nil => exact honce
  | cons b more ih =>
      refine ih _ ?_
      by_cases hb : b.1 = name
      · subst hb
        rw [held_bind_self]
        simp only [List.length_cons, List.length_tail]
        omega
      · rw [held_bind_of_ne _ _ hb]
        exact honce

theorem length_held_le {bs : Bindings α} (hnodup : bs.names.Nodup) (name : String) :
    (bs.held name).length ≤ 1 := by
  have hcount := List.nodup_iff_count.mp hnodup name
  rwa [names, List.count, List.countP_map, List.countP_eq_length_filter,
    ← List.length_map (f := Prod.snd)] at hcount

/-- What is held at most once is what is found. -/
theorem held_eq_singleton {bs : Bindings α} {name : String} {value : α}
    (honce : (bs.held name).length ≤ 1) (h : bs.find? name = some value) :
    bs.held name = [value] := by
  rw [find?_eq_head?_held] at h
  generalize bs.held name = vs at h honce
  match vs, h, honce with
  | [v], h, _ => rw [Option.some.inj h]
  | _ :: _ :: _, _, honce => simp at honce

end Bindings

namespace Environment

/-- The values that an environment holds for an alias. -/
def held (env : Environment) (name : String) : List Value := env.aliases.held name

theorem alias?_eq_head? (env : Environment) (name : String) :
    env.alias? name = (env.held name).head? :=
  Bindings.find?_eq_head?_held env.aliases name

/-- The type that a value gives to the alias it is bound to. -/
def typeHeld (w : World) (v : Value) : Option String := v.entity?.map w.typeOf

theorem find?_scope (env : Environment) (w : World) (name : String) :
    Query.Scope.find? (env.scope w) name = (env.held name).getLast?.map fun v =>
      { name, type? := typeHeld w v, joinPath? := none, inner := true, fetch := false } := by
  unfold Query.Scope.find? scope held Bindings.held
  induction env.aliases with
  | nil => rfl
  | cons b bs ih =>
      rw [List.map_cons, List.reverse_cons, List.find?_append, ih, List.filter_cons]
      by_cases hb : b.1 = name
      · subst hb
        simp only [beq_self_eq_true, if_true, List.map_cons, List.find?_singleton]
        cases hrest : (bs.filter fun c => c.1 == b.1).map Prod.snd with
        | nil => simp [typeHeld]
        | cons c cs =>
            rw [List.getLast?_cons_cons, List.getLast?_eq_some_getLast (List.cons_ne_nil c cs)]
            rfl
      · have hneq : (b.1 == name) = false := beq_false_of_ne hb
        simp [hneq]

end Environment

end RowGuard
