import RowGuard.Evaluation.Traced

/-!
# Stores

Where objects are kept for good.  A store answers queries, finds objects by
their identity, and takes objects in, merges, removes and reloads them.  Any of
this may fail.  What a store does depends on the world it is asked in, and only
reloading an object changes that world.
-/

namespace RowGuard

structure Store where
  query : World → StoreQuery → Except Fault (List Value)
  find : World → (type : String) → (id : Value) → Except Fault (Option ObjectId)
  persist : World → ObjectId → Except Fault Unit
  /-- Gives the object that the store keeps for a detached one. -/
  merge : World → ObjectId → Except Fault ObjectId
  remove : World → ObjectId → Except Fault Unit
  /-- Gives the world in which the object has its stored state again. -/
  refresh : World → ObjectId → Except Fault World

/-- One use of a store. -/
inductive StoreCall where
  | query (q : StoreQuery)
  | find (type : String) (id : Value)
  | persist (object : ObjectId)
  | merge (object : ObjectId)
  | remove (object : ObjectId)
  | refresh (object : ObjectId)

end RowGuard
