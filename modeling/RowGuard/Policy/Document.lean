import RowGuard.Document.Json
import RowGuard.Fault

/-!
# Rule documents

The written form of a list of rules has one field, the texts of the rules, and
no others.
-/

namespace RowGuard.Policy

open Document (Json)

/-- The rule texts that a document holds, if it is well formed. -/
def documentTexts? (j : Json) : Option (List String) := do
  match ← Json.record? ["rules"] j with
  | [rules] => Json.required? (Json.list? Json.text?) rules
  | _ => none

/-- Whether a document has only the field that it may have. -/
def hasOnlyRules : Json → Bool
  | .object fields => fields.all fun f => f.1 == some "rules"
  | _ => true

/-- The rule texts that a document holds. -/
def textsOfDocument (text : String) : Except Fault (List String) :=
  match (Json.ofText? text).filter hasOnlyRules |>.bind documentTexts? with
  | some texts => .ok texts
  | none => .error (.configuration .rulesDocument)

end RowGuard.Policy
