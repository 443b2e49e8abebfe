import RowGuard.Query.Keyword
import RowGuard.Source.SyntaxError

/-!
# Tokens

Words are not told apart any further here: a keyword is a word that happens to
spell one.  Literals keep the characters of their source, so a text that is
written again shows them unchanged.
-/

namespace RowGuard.Query

inductive Token where
  /-- A name or a keyword, as it was spelled. -/
  | word (text : String)
  /-- A string literal with its quotes. -/
  | string (text : String)
  | integer (text : String)
  | decimal (text : String)
  /-- A named parameter without its colon. -/
  | named (name : String)
  | positional (index : Nat)
  | equal | notEqual | lessOrEqual | greaterOrEqual | less | greater
  | plus | minus | star | slash
  | dot | comma | opening | closing
deriving DecidableEq

namespace Token

def keyword? : Token → Option Keyword
  | .word text => Keyword.ofWord? text
  | _ => none

/-- The token as a report shows it: literals and parameters as they are, words
and marks between quotes. -/
def describe : Token → String
  | .word text => s!"'{text}'"
  | .string text | .integer text | .decimal text => text
  | .named name => s!":{name}"
  | .positional index => s!"?{index}"
  | .equal => "'='"
  | .notEqual => "'<>'"
  | .lessOrEqual => "'<='"
  | .greaterOrEqual => "'>='"
  | .less => "'<'"
  | .greater => "'>'"
  | .plus => "'+'"
  | .minus => "'-'"
  | .star => "'*'"
  | .slash => "'/'"
  | .dot => "'.'"
  | .comma => "','"
  | .opening => "'('"
  | .closing => "')'"

end Token

/-- A token and the place it was read from. -/
structure Lexeme where
  token : Token
  span : Source.Span
deriving DecidableEq

end RowGuard.Query
