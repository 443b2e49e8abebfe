import RowGuard.World

/-!
# Security contexts

Who is asking: the principal, the roles and the tenant, and values for the
named parameters of rules.  A context without a principal is anonymous, and a
missing principal or tenant counts as null.
-/

namespace RowGuard

structure SecurityContext where
  principal? : Option Value := none
  roles : List Value := []
  tenant? : Option Value := none
  attributes : Bindings Value := []
deriving Inhabited

namespace SecurityContext

def anonymous : SecurityContext := {}

def isAnonymous (c : SecurityContext) : Bool := c.principal?.isNone

def principal (c : SecurityContext) : Value := c.principal?.getD .null

def rolesValue (c : SecurityContext) : Value := .collection c.roles

def tenant (c : SecurityContext) : Value := c.tenant?.getD .null

def hasRole (c : SecurityContext) (w : World) (role : Value) : Bool :=
  w.member role c.roles

def attribute? (c : SecurityContext) (name : String) : Option Value :=
  c.attributes.find? name

end SecurityContext

end RowGuard
