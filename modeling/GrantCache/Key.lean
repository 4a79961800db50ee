/-!
# Keys

Keys are texts whose parts are joined by colons. The cache of grants uses four families of keys:
for each user the role codes and the permission codes, and for each code the users that have it.
-/

namespace GrantCache.Key

/-- The parts that follow `family`, each after a colon. -/
def build (family : String) (parts : List String) : String :=
  parts.foldl (fun key part => key ++ ":" ++ part) family

def familyPattern (family : String) : String := family ++ ":*"

/-! ### The families -/

/-- For a user, the role codes. -/
def userRoles : String := "user:roles"

/-- For a user, the permission codes. -/
def userPermissions : String := "user:permissions"

/-- For a role code, the users. -/
def roleUsers : String := "role:users"

/-- For a permission code, the users. -/
def permissionUsers : String := "permission:users"

/-- All families of the cache of grants, in the order in which they are flushed. -/
def families : List String := [userRoles, userPermissions, roleUsers, permissionUsers]

def member (family : String) (name : String) : String := build family [name]

theorem member_eq (family name : String) : member family name = family ++ ":" ++ name := rfl

theorem member_injective {family a b : String} (h : member family a = member family b) : a = b := by
  have same := congrArg String.toList h
  simp only [member_eq, String.toList_append] at same
  exact String.toList_inj.1 (List.append_cancel_left same)

end GrantCache.Key
