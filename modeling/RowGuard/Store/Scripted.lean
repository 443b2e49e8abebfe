import RowGuard.Store.Basic

/-!
# Scripted stores

A store whose answers are written down beforehand: rows or a fault for each
query text, the objects it can find, what merging and reloading give, and the
operations that fail.
-/

namespace RowGuard

/-- The operations of a store. -/
inductive StoreOperation where
  | query | find | persist | merge | remove | refresh
deriving DecidableEq

namespace StoreOperation

def all : List StoreOperation := [.query, .find, .persist, .merge, .remove, .refresh]

def name : StoreOperation → String
  | .query => "query"
  | .find => "find"
  | .persist => "persist"
  | .merge => "merge"
  | .remove => "remove"
  | .refresh => "refresh"

end StoreOperation

structure StoreScript where
  results : Bindings (Except Fault (List Value)) := []
  /-- The rows for every other query. -/
  default? : Option (List Value) := none
  objects : List ObjectId := []
  failing : List StoreOperation := []
  merged : List (ObjectId × ObjectId) := []
  refreshed : List (ObjectId × Bindings Value) := []

namespace StoreScript

/-- Fails if the script says that the operation does. -/
def attempt {α : Type} (s : StoreScript) (op : StoreOperation) (outcome : Except Fault α) :
    Except Fault α :=
  if s.failing.contains op then .error (.session s!"{op.name} failed") else outcome

def answer (s : StoreScript) (q : StoreQuery) : Except Fault (List Value) :=
  match s.results.find? q.text, s.default? with
  | some result, _ => result
  | none, some rows => .ok rows
  | none, none => .error (.session s!"unexpected query {q.text}")

/-- The first object of the type with the identity. -/
def found? (s : StoreScript) (w : World) (type : String) (id : Value) : Option ObjectId :=
  s.objects.find? fun o =>
    w.typeOf o == type && ((w.identity? o).map fun v => w.same v id).getD false

/-- The store that does what the script says. -/
def store (s : StoreScript) : Store where
  query _ q := s.attempt .query (s.answer q)
  find w type id := s.attempt .find (.ok (s.found? w type id))
  persist _ _ := s.attempt .persist (.ok ())
  merge _ o := s.attempt .merge (.ok ((s.merged.lookup o).getD o))
  remove _ _ := s.attempt .remove (.ok ())
  refresh w o := s.attempt .refresh (.ok (w.set o ((s.refreshed.lookup o).getD [])))

end StoreScript

end RowGuard
