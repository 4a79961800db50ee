import GrantCache.Span

/-!
# Why a call to a store fails

The causes, and their wording in one place. What the remote side or a library says about its own
failure is kept only where this library chooses the text.
-/

namespace GrantCache

inductive Fault where
  /-- The breaker that guards the store refused the call. -/
  | circuitOpen
  /-- The remote store answered with an error, with a reply of another kind, or not at all. -/
  | remote
  | pool (detail : String)
  | timeout (limit : Span)
  /-- A value is not of the kind asked for, or its text is no JSON. -/
  | serialization
  | notAnInteger (key : String)
  | wrongType (key : String)
deriving DecidableEq, Inhabited

namespace Fault

def message : Fault → String
  | circuitOpen => "cache circuit is open"
  | remote => "redis error"
  | pool detail => "connection pool error: " ++ detail
  | timeout limit => "cache command timed out after " ++ limit.text
  | serialization => "serialization error"
  | notAnInteger key => "value at '" ++ key ++ "' is not an integer"
  | wrongType key => "key '" ++ key ++ "' holds the wrong kind of value"

/-- The text of a failure without what others have said about it. -/
def summary : Fault → String
  | pool _ => "connection pool error"
  | f => f.message

end Fault

/-- The text for an operation that did not end before its deadline. -/
def Span.elapsedMessage (limit : Span) : String := "operation timed out after " ++ limit.text

/-- Run work that takes `work` nanoseconds under a deadline: work that ends exactly at the deadline
has ended in time. -/
def Span.within {α : Type} (limit work : Span) (value : α) : Except Span α :=
  if work.nanos ≤ limit.nanos then .ok value else .error limit

end GrantCache
