/-!
# Shutdown signals

Parties listen for a signal to stop. A signal reaches those that listen when it is sent, and nobody
else. A party that has missed several signals is told so once, and has then only the newest one
left.
-/

namespace GrantCache

/-- Who can listen: a sweeper, or a caller by name. -/
inductive Party where
  | sweeper (number : Nat)
  | caller (name : String)
deriving DecidableEq, Inhabited

/-- What a party finds when it looks for a signal. -/
inductive Signal where
  | signal
  | nothing
  /-- Signals were lost. -/
  | lagged
deriving DecidableEq, Inhabited

def Signal.name : Signal → String
  | signal => "signal"
  | nothing => "none"
  | lagged => "lagged"

/-- The parties that listen, each with the number of signals it has not taken. -/
structure Shutdown where
  listeners : List (Party × Nat) := []
deriving DecidableEq, Inhabited

namespace Shutdown

def count (s : Shutdown) : Nat := s.listeners.length

def unsubscribe (p : Party) (s : Shutdown) : Shutdown :=
  ⟨s.listeners.filter (·.1 ≠ p)⟩

/-- A party starts to listen, anew if it listened before. -/
def subscribe (p : Party) (s : Shutdown) : Shutdown :=
  ⟨(s.unsubscribe p).listeners ++ [(p, 0)]⟩

/-- Send a signal to all that listen. -/
def trigger (s : Shutdown) : Shutdown := ⟨s.listeners.map fun l => (l.1, l.2 + 1)⟩

/-- The number of signals that a party has not taken. -/
def unread (p : Party) (s : Shutdown) : Nat := ((s.listeners.find? (·.1 = p)).map (·.2)).getD 0

/-- A party looks for a signal. -/
def take (p : Party) (s : Shutdown) : Signal × Shutdown :=
  let leave (n : Nat) : Shutdown := ⟨s.listeners.map fun l => if l.1 = p then (p, n) else l⟩
  match s.unread p with
  | 0 => (.nothing, s)
  | 1 => (.signal, leave 0)
  | _ => (.lagged, leave 1)

/-- A party that starts to listen has nothing to take. -/
theorem unread_subscribe (p : Party) (s : Shutdown) : (s.subscribe p).unread p = 0 := by
  have gone : (s.unsubscribe p).listeners.find? (·.1 = p) = none := by
    rw [List.find?_eq_none]
    intro l hl
    simpa using (List.mem_filter.1 hl).2
  rw [unread, subscribe, List.find?_append, gone]
  simp

/-- A party that has taken what there was finds nothing. -/
theorem take_eq_nothing {p : Party} {s : Shutdown} (h : s.unread p = 0) :
    s.take p = (.nothing, s) := by
  simp [take, h]

@[simp] theorem count_trigger (s : Shutdown) : s.trigger.count = s.count := by
  simp [count, trigger]

end Shutdown

end GrantCache
