/-!
# Keywords

Words are keywords by their spelling alone, whatever their case.  A reserved
keyword can never name a variable; the others can, and only their place in a
phrase tells what they are.
-/

namespace RowGuard.Query

/-- The keywords of queries and rules. -/
inductive Keyword where
  | select | from_ | where_ | group | by_ | having | order | asc | desc | distinct | and
  | or | not | between | in_ | like | escape | is | null | empty | member | of_ | exists_
  | join | inner | left | outer | fetch | as_ | new | true_ | false_ | update | delete
  | set | currentDate | currentTime | currentTimestamp | currentPrincipal | currentRoles
  | currentTenant | grant | access | to | create | read | leading | trailing | both
deriving DecidableEq

namespace Keyword

/-- The spelling in upper case. -/
def text : Keyword → String
  | .select => "SELECT"
  | .from_ => "FROM"
  | .where_ => "WHERE"
  | .group => "GROUP"
  | .by_ => "BY"
  | .having => "HAVING"
  | .order => "ORDER"
  | .asc => "ASC"
  | .desc => "DESC"
  | .distinct => "DISTINCT"
  | .and => "AND"
  | .or => "OR"
  | .not => "NOT"
  | .between => "BETWEEN"
  | .in_ => "IN"
  | .like => "LIKE"
  | .escape => "ESCAPE"
  | .is => "IS"
  | .null => "NULL"
  | .empty => "EMPTY"
  | .member => "MEMBER"
  | .of_ => "OF"
  | .exists_ => "EXISTS"
  | .join => "JOIN"
  | .inner => "INNER"
  | .left => "LEFT"
  | .outer => "OUTER"
  | .fetch => "FETCH"
  | .as_ => "AS"
  | .new => "NEW"
  | .true_ => "TRUE"
  | .false_ => "FALSE"
  | .update => "UPDATE"
  | .delete => "DELETE"
  | .set => "SET"
  | .currentDate => "CURRENT_DATE"
  | .currentTime => "CURRENT_TIME"
  | .currentTimestamp => "CURRENT_TIMESTAMP"
  | .currentPrincipal => "CURRENT_PRINCIPAL"
  | .currentRoles => "CURRENT_ROLES"
  | .currentTenant => "CURRENT_TENANT"
  | .grant => "GRANT"
  | .access => "ACCESS"
  | .to => "TO"
  | .create => "CREATE"
  | .read => "READ"
  | .leading => "LEADING"
  | .trailing => "TRAILING"
  | .both => "BOTH"

def all : List Keyword :=
  [.select, .from_, .where_, .group, .by_, .having, .order, .asc, .desc, .distinct, .and,
    .or, .not, .between, .in_, .like, .escape, .is, .null, .empty, .member, .of_,
    .exists_, .join, .inner, .left, .outer, .fetch, .as_, .new, .true_, .false_, .update,
    .delete, .set, .currentDate, .currentTime, .currentTimestamp, .currentPrincipal,
    .currentRoles, .currentTenant, .grant, .access, .to, .create, .read, .leading,
    .trailing, .both]

/-- The keyword that a word spells in any case. -/
def ofWord? (word : String) : Option Keyword :=
  all.find? fun k => k.text == word.toUpper

/-- Keywords that are read as plain names wherever a name may stand. -/
def isContextual : Keyword → Bool
  | .grant | .access | .to | .create | .read | .leading | .trailing | .both => true
  | _ => false

def isReserved (k : Keyword) : Bool := !k.isContextual

theorem mem_all (k : Keyword) : k ∈ all := by
  cases k <;> decide

end Keyword

end RowGuard.Query
