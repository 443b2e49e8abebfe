/-!
# Bindings

What names stand for: each name is bound at most once, and the bindings keep
the order in which the names were first bound.
-/

namespace RowGuard

abbrev Bindings (α : Type) := List (String × α)

namespace Bindings

variable {α : Type}

def find? (bs : Bindings α) (name : String) : Option α := List.lookup name bs

def names (bs : Bindings α) : List String := bs.map Prod.fst

def binds (bs : Bindings α) (name : String) : Bool := (bs.find? name).isSome

/-- Binds a name anew, in its place if it was bound before. -/
def bind : Bindings α → String → α → Bindings α
  | [], name, value => [(name, value)]
  | (n, v) :: rest, name, value =>
      if name == n then (name, value) :: rest else (n, v) :: bind rest name value

/-- Binds names one after the other. -/
def bindAll (bs more : Bindings α) : Bindings α :=
  more.foldl (fun acc b => acc.bind b.1 b.2) bs

def unbind (bs : Bindings α) (name : String) : Bindings α :=
  bs.filter fun b => b.1 != name

def unbindAll (bs : Bindings α) (names : List String) : Bindings α :=
  names.foldl unbind bs

def ofList (entries : List (String × α)) : Bindings α := bindAll [] entries

@[simp]
theorem find?_bind_self (bs : Bindings α) (name : String) (value : α) :
    (bs.bind name value).find? name = some value := by
  induction bs with
  | nil => exact List.lookup_cons_self
  | cons b bs ih =>
      obtain ⟨n, v⟩ := b
      unfold find? at ih
      by_cases h : name == n <;> simp [bind, find?, List.lookup_cons, h, ih]

theorem find?_bind_of_ne (bs : Bindings α) {name other : String} (value : α)
    (h : other ≠ name) : (bs.bind name value).find? other = bs.find? other := by
  have hother : (other == name) = false := beq_false_of_ne h
  induction bs with
  | nil => simp [bind, find?, List.lookup_cons, hother]
  | cons b bs ih =>
      obtain ⟨n, v⟩ := b
      unfold find? at ih
      by_cases hn : name = n
      · subst hn
        simp [bind, find?, List.lookup_cons, hother]
      · simp [bind, find?, List.lookup_cons, hn, ih]

theorem binds_bind (bs : Bindings α) {name : String} (other : String) (value : α)
    (h : bs.binds name) : (bs.bind other value).binds name := by
  by_cases hn : name = other
  · subst hn
    simp [binds]
  · rwa [binds, find?_bind_of_ne bs value hn]

/-- Binding more names takes no binding away. -/
theorem binds_bindAll (bs more : Bindings α) (name : String) (h : bs.binds name) :
    (bs.bindAll more).binds name := by
  induction more generalizing bs with
  | nil => exact h
  | cons b more ih => exact ih (bs.bind b.1 b.2) (binds_bind bs b.1 b.2 h)

end Bindings

end RowGuard
