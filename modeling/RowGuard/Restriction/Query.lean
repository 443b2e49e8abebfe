import RowGuard.Evaluation.Evaluator
import RowGuard.Policy.Rule
import RowGuard.Restriction.ContextParameters
import RowGuard.Restriction.Separation
import RowGuard.Restriction.Substitution

/-!
# Restricted queries

A query is restricted by adding a condition for each object that it selects:
some rule for the type of the object must grant the access.  The conditions of
the rules are put in with the path of the object for their subject and with
parameters for the security context.

A rule that grants whatever the object is makes its condition superfluous, and
one that denies whatever the object is drops out.  If no rule is left, the query
cannot give anything, and there is no restricted query at all.
-/

namespace RowGuard

open Query (AccessKind Label Statement StatementKind Phrase)

structure RestrictedQuery where
  /-- The text of the query; none if nothing that it gives is accessible. -/
  text? : Option String
  /-- The values of the parameters that the restriction brought in. -/
  parameters : Bindings Value
  selectedPaths : List String
  resultType? : Option String

namespace Restriction

/-! ## Rules before any object is known -/

/-- The environment of a rule condition but for its subject. -/
def ruleEnvironment (c : SecurityContext) (now : Timestamp) : Environment :=
  { named := c.attributes, context? := some c, now }

/-- What a rule says of an object that is not known yet. -/
inductive Verdict where
  | granted | denied | depends
deriving DecidableEq

def Verdict.ofTruth : Option Bool → Verdict
  | some true => .granted
  | some false => .denied
  | none => .depends

def verdict (ev : Evaluator) (c : SecurityContext) (now : Timestamp) (r : AccessRule) :
    Traced Verdict :=
  match r.condition? with
  | none => return .granted
  | some condition => do
      let b ← ev.truth (ruleEnvironment c now) condition
      return Verdict.ofTruth b

/-! ## What is restricted -/

/-- The longest beginning of a path that follows single-valued properties only,
and the type that it leads to. -/
def longestPrefix (m : Mapping) (path type : String) : List String → String × String
  | [] => (path, type)
  | segment :: rest =>
      match m.propertyType? type segment with
      | some (.entity target) => longestPrefix m (path ++ "." ++ segment) target rest
      | _ => (path, type)

/-- The object path to restrict for a selected path, if its root has a type. -/
def objectPath? (m : Mapping) (s : Statement) (selected : String) :
    Option (String × String) := do
  let root := Text.Dotted.first selected
  let d ← s.definition? root
  let type ← d.type?
  return longestPrefix m root type (Text.Dotted.others selected)

/-- Adds an object path unless it is there already. -/
def addPath (paths : List (String × String)) (p : String × String) :
    List (String × String) :=
  if paths.any fun q => q.1 == p.1 then paths else paths ++ [p]

/-- The object paths that a statement selects, each once, with their types. -/
def objectPaths (m : Mapping) (s : Statement) : List (String × String) :=
  (s.selectedPaths.filterMap (objectPath? m s)).foldl addPath []

/-- All aliases that a statement declares, in its subselects too. -/
def declaredAnywhere (s : Statement) : List String :=
  s.aliases ++ (s.phrase.collect fun n => n.label == .subselect).flatMap Phrase.declaredAliases

/-! ## Conditions -/

/-- The condition of a rule, put to a path of a query whose aliases are taken.  A
condition that the context cannot bind grants nothing. -/
def instantiate (c : SecurityContext) (taken : List String) (path : String)
    (r : AccessRule) : Binder Phrase :=
  match r.condition? with
  | none => return Phrase.build (.booleanLiteral true) []
  | some condition =>
      if isUnbindable c condition then return Phrase.alwaysFalse
      else
        let apart := (separate id taken condition).1
        bindContext c (substitute r.subject (Phrase.ofDotted path) apart)

abbrev Restricting := StateT ContextParameters Traced

def runBinder {α : Type} (b : Binder α) : Restricting α :=
  fun state => return b.run state

/-- The conditions of some rules for a path, none if a rule grants without one.
Rules are looked at in their order, up to the first that does. -/
def conditions (ev : Evaluator) (c : SecurityContext) (now : Timestamp)
    (taken : List String) (path : String) : List AccessRule → Restricting (Option (List Phrase))
  | [] => return some []
  | r :: rest => do
      match ← StateT.lift (verdict ev c now r) with
      | .granted => return none
      | .denied => conditions ev c now taken path rest
      | .depends => do
          let condition ← runBinder (instantiate c taken path r)
          match ← conditions ev c now taken path rest with
          | none => return none
          | some others => return some (condition :: others)

/-- One of some conditions must hold. -/
def anyOf (conditions : List Phrase) : Phrase :=
  (Phrase.disjunction (conditions.map Phrase.bracketed)).bracketed

/-- The restrictions for some object paths; none if nothing on one of the paths is
accessible, and no further path is looked at then. -/
def restrictions (ev : Evaluator) (policy : Policy) (kind : AccessKind)
    (c : SecurityContext) (now : Timestamp) (taken : List String) :
    List (String × String) → Restricting (Option (List Phrase))
  | [] => return some []
  | (path, type) :: rest => do
      match ← conditions ev c now taken path (policy.rulesForType ev.mapping type kind) with
      | none => restrictions ev policy kind c now taken rest
      | some [] => return none
      | some cs => do
          match ← restrictions ev policy kind c now taken rest with
          | none => return none
          | some others => return some (anyOf cs :: others)

/-! ## The statement -/

/-- The clauses behind which a condition is put. -/
def precedesCondition : Label → Bool
  | .fromClause | .setClause | .deleteClause => true
  | _ => false

def whereClause (condition : Phrase) : Phrase := Phrase.build .whereClause [condition]

/-- Puts the clause behind the first clause that it can follow, else at the end. -/
def insertClause (clause : Phrase) : List Phrase → List Phrase
  | [] => [clause]
  | t :: ts =>
      if precedesCondition t.label then t :: clause :: ts else t :: insertClause clause ts

/-- Replaces the condition of the first clause that has one. -/
def replaceCondition (condition : Phrase) : List Phrase → List Phrase
  | [] => []
  | .node .whereClause _ span :: ts => .node .whereClause [condition] span :: ts
  | t :: ts => t :: replaceCondition condition ts

/-- The statement with another condition. -/
def setCondition (condition : Phrase) : Phrase → Phrase
  | .node label cs span =>
      if cs.any fun c => c.label == .whereClause then
        .node label (replaceCondition condition cs) span
      else .node label (insertClause (whereClause condition) cs) span

/-- The statement with restrictions beside the condition it has. -/
def addRestrictions (s : Statement) (found : List Phrase) : Phrase :=
  if found.isEmpty then s.phrase
  else
    let present := (s.condition?.map Phrase.bracketed).toList
    setCondition (Phrase.conjunction (present ++ found)) s.phrase

/-- Updates and deletions are restricted as such, whatever was asked for. -/
def effectiveKind (s : Statement) (kind : AccessKind) : AccessKind :=
  match s.kind with
  | .update => .update
  | .delete => .delete
  | _ => kind

/-- The query that gives only objects that the context may access. -/
def restrict (ev : Evaluator) (policy : Policy) (s : Statement) (kind : AccessKind)
    (c : SecurityContext) (now : Timestamp) : Traced RestrictedQuery := do
  let start : ContextParameters := { taken := s.parameters }
  let paths := objectPaths ev.mapping s
  let (found?, final) ←
    (restrictions ev policy (effectiveKind s kind) c now (declaredAnywhere s) paths).run start
  let result : RestrictedQuery :=
    { text? := none, parameters := [], selectedPaths := s.selectedPaths
      resultType? := s.resultType? }
  match found? with
  | none => return result
  | some found =>
      return { result with
        text? := some (addRestrictions s found).render, parameters := final.values }

/-! ## Single objects -/

/-- What asking the rules for one object came to: the answer, and how many rule
conditions were evaluated with which queries to the store. -/
structure Decision where
  outcome : Except Fault Bool
  evaluations : Nat
  queries : List StoreQuery

/-- Whether one of some rules grants access to an object.  Rules are asked in
their order, up to the first that grants or fails; an undecided one does not
grant. -/
def askRules (ev : Evaluator) (c : SecurityContext) (now : Timestamp) (object : ObjectId) :
    List AccessRule → Decision
  | [] => ⟨.ok false, 0, []⟩
  | r :: rest =>
      match r.condition? with
      | none => ⟨.ok true, 0, []⟩
      | some condition =>
          let env := (ruleEnvironment c now).bindAlias r.subject (.entity object)
          let asked := ev.truth env condition
          match asked.outcome with
          | .error e => ⟨.error e, 1, asked.queries⟩
          | .ok (some true) => ⟨.ok true, 1, asked.queries⟩
          | .ok _ =>
              let later := askRules ev c now object rest
              ⟨later.outcome, later.evaluations + 1, asked.queries ++ later.queries⟩

end Restriction

end RowGuard
