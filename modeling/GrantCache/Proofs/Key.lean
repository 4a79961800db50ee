import GrantCache.Grants.Plan
import GrantCache.Proofs.Glob

/-!
# The four families of keys

No key belongs to two families (`member_ne_member`), and a key of a family determines the user or
the code that it is for (`entryKey_inj`, `indexKey_inj`), whatever characters these have. The
pattern of a family matches its keys and no others (`matches_familyPattern`).
-/

namespace GrantCache.Key

/-! ## Belonging to a family -/

/-- Whether a key belongs to a family. -/
def inFamily (family key : String) : Bool := (family ++ ":").toList.isPrefixOf key.toList

/-- Whether a key belongs to one of the families of the cache of grants. -/
def isGrantKey (key : String) : Bool := families.any fun family => inFamily family key

/-- The keys of a family are those of its members. -/
theorem inFamily_iff {family key : String} :
    inFamily family key = true ↔ ∃ name, key = member family name := by
  rw [inFamily, List.isPrefixOf_iff_prefix]
  constructor
  · rintro ⟨name, h⟩
    refine ⟨String.ofList name, String.toList_inj.1 ?_⟩
    rw [member_eq, String.toList_append, String.toList_ofList, h]
  · rintro ⟨name, rfl⟩
    simp only [member_eq, String.toList_append]
    exact List.prefix_append ..

@[simp] theorem inFamily_member (family name : String) :
    inFamily family (member family name) = true := inFamily_iff.2 ⟨name, rfl⟩

/-- No key of one family belongs to another. -/
theorem inFamily_member_of_ne {family other : String} (hf : family ∈ families)
    (ho : other ∈ families) (h : family ≠ other) (name : String) :
    inFamily family (member other name) = false := by
  simp only [families, List.mem_cons, List.not_mem_nil, or_false] at hf ho
  -- any two families differ in a character that both have
  rcases hf with rfl | rfl | rfl | rfl <;> rcases ho with rfl | rfl | rfl | rfl <;>
    first
      | exact absurd rfl h
      | simp [inFamily, member_eq, userRoles, userPermissions, roleUsers, permissionUsers,
          List.isPrefixOf]

/-- Members of two families never share a key, whatever their names. -/
theorem member_ne_member {family other : String} (hf : family ∈ families) (ho : other ∈ families)
    (h : family ≠ other) (a b : String) : member family a ≠ member other b := by
  intro same
  have apart := inFamily_member_of_ne hf ho h b
  rw [← same, inFamily_member] at apart
  cases apart

/-! ## Patterns of families -/

/-- The pattern of a family spells out the family and its colon, and then takes anything: none of the
characters has a meaning of its own. -/
theorem symbols_familyPattern : ∀ family ∈ families,
    Glob.symbols (familyPattern family).toList =
      (family ++ ":").toList.map (fun c => .one (.literal c)) ++ [.star] := by
  decide +kernel

/-- The pattern of a family matches the keys of the family. -/
theorem matches_familyPattern {family : String} (hf : family ∈ families) (key : String) :
    Glob.matchesText (familyPattern family) key = inFamily family key := by
  rw [Bool.eq_iff_iff, Glob.matchesText_iff, symbols_familyPattern family hf,
    Glob.splits_literals_star, inFamily, List.isPrefixOf_iff_prefix]

end GrantCache.Key

namespace GrantCache.GrantKind

open Key

/-! ## Keys of users and of codes -/

/-- The family of the keys under which the codes of users are cached. -/
def entryFamily : GrantKind → String
  | role => userRoles
  | permission => userPermissions

/-- The family of the keys of the sets of users that have a code. -/
def indexFamily : GrantKind → String
  | role => roleUsers
  | permission => permissionUsers

theorem entryKey_eq (kind : GrantKind) (user : String) :
    kind.entryKey user = member kind.entryFamily user := by cases kind <;> rfl

theorem indexKey_eq (kind : GrantKind) (code : String) :
    kind.indexKey code = member kind.indexFamily code := by cases kind <;> rfl

theorem entryFamily_mem (kind : GrantKind) : kind.entryFamily ∈ families := by
  cases kind <;> simp [entryFamily, families]

theorem indexFamily_mem (kind : GrantKind) : kind.indexFamily ∈ families := by
  cases kind <;> simp [indexFamily, families]

theorem entryFamily_ne_indexFamily (kind other : GrantKind) :
    kind.entryFamily ≠ other.indexFamily := by
  cases kind <;> cases other <;> decide

theorem entryFamily_inj {kind other : GrantKind} :
    kind.entryFamily = other.entryFamily ↔ kind = other := by
  cases kind <;> cases other <;> decide

theorem indexFamily_inj {kind other : GrantKind} :
    kind.indexFamily = other.indexFamily ↔ kind = other := by
  cases kind <;> cases other <;> decide

/-- The key of a user is never that of a code. -/
theorem entryKey_ne_indexKey (kind other : GrantKind) (user code : String) :
    kind.entryKey user ≠ other.indexKey code := by
  rw [entryKey_eq, indexKey_eq]
  exact member_ne_member (entryFamily_mem kind) (indexFamily_mem other)
    (entryFamily_ne_indexFamily kind other) user code

/-- Different users, and the two entries of one user, have different keys. -/
theorem entryKey_inj {kind other : GrantKind} {user name : String} :
    kind.entryKey user = other.entryKey name ↔ kind = other ∧ user = name := by
  constructor
  · intro h
    rw [entryKey_eq, entryKey_eq] at h
    by_cases hk : kind = other
    · subst hk
      exact ⟨rfl, member_injective h⟩
    · exact absurd h (member_ne_member (entryFamily_mem kind) (entryFamily_mem other)
        (fun he => hk (entryFamily_inj.1 he)) user name)
  · rintro ⟨rfl, rfl⟩
    rfl

/-- Different codes, and a role and a permission of one name, have different keys. -/
theorem indexKey_inj {kind other : GrantKind} {code name : String} :
    kind.indexKey code = other.indexKey name ↔ kind = other ∧ code = name := by
  constructor
  · intro h
    rw [indexKey_eq, indexKey_eq] at h
    by_cases hk : kind = other
    · subst hk
      exact ⟨rfl, member_injective h⟩
    · exact absurd h (member_ne_member (indexFamily_mem kind) (indexFamily_mem other)
        (fun he => hk (indexFamily_inj.1 he)) code name)
  · rintro ⟨rfl, rfl⟩
    rfl

theorem isGrantKey_entryKey (kind : GrantKind) (user : String) :
    isGrantKey (kind.entryKey user) = true := by
  rw [entryKey_eq, isGrantKey, List.any_eq_true]
  exact ⟨_, entryFamily_mem kind, inFamily_member _ _⟩

theorem isGrantKey_indexKey (kind : GrantKind) (code : String) :
    isGrantKey (kind.indexKey code) = true := by
  rw [indexKey_eq, isGrantKey, List.any_eq_true]
  exact ⟨_, indexFamily_mem kind, inFamily_member _ _⟩

end GrantCache.GrantKind
