import GrantCache.Circuit
import Mathlib.Data.List.DropRight

/-!
# The life of a circuit

All that a circuit can do is one of ten steps (`Circuit.Happens`). Its life begins with zero counts
and is a sequence of marks: a call asks to run, a call that ran comes to its end, or the circuit is
reset (`Circuit.Life`). Calls end at any time and in any order, so a mark says nothing about the one
before it but that the circuit is left as it was.

What a circuit counts is what has ended since its counts were zero the last time (`Mark.history`).
-/

namespace GrantCache

/-! ## Steps -/

/-- What can happen at a circuit. -/
inductive Deed where
  /-- A call asks to run, and is admitted or refused. -/
  | enter (p : Policy) (admitted : Bool)
  /-- A call that ran comes to its end, well or not. -/
  | finish (p : Policy) (ok : Bool)
  | reset
deriving DecidableEq

/-- The thresholds of the call that does it. -/
def Deed.policy? : Deed → Option Policy
  | enter p _ | finish p _ => some p
  | reset => none

namespace Circuit

/-- The counts with one more call that has ended. -/
def count (ok : Bool) (c : Circuit) : Circuit :=
  { c with
    requests := c.requests + 1
    failures := if ok then c.failures else c.failures + 1
    successes := if ok then c.successes + 1 else c.successes
    streak := if ok then c.streak + 1 else 0 }

/-- Open, with the timeout counting from `now`. -/
def trippedAt (now : Nat) (c : Circuit) : Circuit :=
  { c with phase := .opened, lastFailure := some now }

@[simp] theorem phase_count (ok : Bool) (c : Circuit) : (c.count ok).phase = c.phase := rfl

@[simp] theorem phase_trippedAt (now : Nat) (c : Circuit) : (c.trippedAt now).phase = .opened := rfl

@[simp] theorem lastFailure_trippedAt (now : Nat) (c : Circuit) :
    (c.trippedAt now).lastFailure = some now := rfl

/-- All that can happen at a circuit, by its phase. -/
inductive Happens : Deed → Nat → Circuit → Circuit → Prop
  | pass {p now c} (h : c.phase ≠ .opened) : Happens (.enter p true) now c c
  | refuse {p now c} (h : c.phase = .opened) (tired : c.rested p now = false) :
    Happens (.enter p false) now c c
  | probe {p now c} (h : c.phase = .opened) (rested : c.rested p now = true) :
    Happens (.enter p true) now c { c with phase := .halfOpen }
  | stay {p now ok c} (h : c.phase = .closed) (calm : (c.count ok).shouldTrip p = false) :
    Happens (.finish p ok) now c (c.count ok)
  | trip {p now ok c} (h : c.phase = .closed) (trips : (c.count ok).shouldTrip p = true) :
    Happens (.finish p ok) now c ((c.count ok).trippedAt now)
  | trial {p now c} (h : c.phase = .halfOpen) (few : c.streak + 1 < p.successThreshold) :
    Happens (.finish p true) now c (c.count true)
  | close {p now c} (h : c.phase = .halfOpen) (enough : p.successThreshold ≤ c.streak + 1) :
    Happens (.finish p true) now c {}
  | late {p now c} (h : c.phase = .opened) : Happens (.finish p true) now c (c.count true)
  | fail {p now c} (h : c.phase ≠ .closed) :
    Happens (.finish p false) now c ((c.count false).trippedAt now)
  | reset {now c} : Happens .reset now c {}

theorem happens_enter (name : String) (p : Policy) (now : Nat) (c : Circuit) :
    Happens (.enter p (c.enter name p now).1) now c (c.enter name p now).2.1 := by
  by_cases h : c.phase = .opened
  · cases rested : c.rested p now with
    | false =>
      have refused : (c.enter name p now).1 = false := (enter_eq_false_iff ..).2 ⟨h, rested⟩
      rw [enter_of_false refused, refused]
      exact .refuse h rested
    | true =>
      have entered : (c.enter name p now).2.1 = { c with phase := .halfOpen } := by
        rw [← move_eq name]
        simp [enter, h, rested]
      have admitted : (c.enter name p now).1 = true := by simp [enter, h, rested]
      rw [entered, admitted]
      exact .probe h rested
  · have same : c.enter name p now = (true, c, []) := by simp [enter, h]
    rw [same]
    exact .pass h

/-- A closed circuit whose counts call for it opens; then the timeout counts from now. -/
theorem tripIfNeeded_eq (name : String) (p : Policy) (now : Nat) (c : Circuit) :
    (c.tripIfNeeded name p now).1 = if c.shouldTrip p then c.trippedAt now else c := by
  unfold tripIfNeeded
  split
  · exact move_eq ..
  · rfl

/-- A failure opens a circuit that is not closed, and the timeout counts from now. -/
theorem finish_of_not_closed (name : String) (p : Policy) (now : Nat) {c : Circuit}
    (h : c.phase ≠ .closed) : (c.finish name p now false).1 = (c.count false).trippedAt now := by
  cases hp : c.phase with
  | closed => exact absurd hp h
  | halfOpen | opened => simp [finish, fail, hp, move_eq, trippedAt, count]

theorem happens_finish (name : String) (p : Policy) (now : Nat) (ok : Bool) (c : Circuit) :
    Happens (.finish p ok) now c (c.finish name p now ok).1 := by
  cases h : c.phase with
  | closed =>
    -- A success can trip a closed circuit too, when it brings the calls up to the number required.
    have ended : (c.finish name p now ok).1 = ((c.count ok).tripIfNeeded name p now).1 := by
      cases ok <;> simp [finish, succeed, fail, h, count]
    rw [ended, tripIfNeeded_eq]
    cases trips : (c.count ok).shouldTrip p with
    | true => exact .trip h trips
    | false => exact .stay h trips
  | halfOpen =>
    cases ok with
    | true =>
      by_cases enough : p.successThreshold ≤ c.streak + 1
      · have ended : (c.finish name p now true).1 = {} := by simp [finish, succeed, h, enough]
        rw [ended]
        exact .close h enough
      · have ended : (c.finish name p now true).1 = c.count true := by
          simp [finish, succeed, h, enough, count]
        rw [ended]
        exact .trial h (Nat.lt_of_not_le enough)
    | false =>
      have notClosed : c.phase ≠ .closed := by simp [h]
      rw [finish_of_not_closed name p now notClosed]
      exact .fail notClosed
  | opened =>
    cases ok with
    | true =>
      have ended : (c.finish name p now true).1 = c.count true := by
        simp [finish, succeed, h, count]
      rw [ended]
      exact .late h
    | false =>
      have notClosed : c.phase ≠ .closed := by simp [h]
      rw [finish_of_not_closed name p now notClosed]
      exact .fail notClosed

theorem happens_reset (name : String) (now : Nat) (c : Circuit) :
    Happens .reset now c (c.reset name).1 := .reset

end Circuit

/-! ## Marks -/

/-- That something happened at a circuit, with the circuit before and after it. -/
structure Mark where
  name : String
  deed : Deed
  time : Nat
  before : Circuit
  after : Circuit
deriving DecidableEq

namespace Mark

/-- A call has ended. -/
def ends (m : Mark) : Bool := m.deed matches .finish ..

def succeeded (m : Mark) : Bool := m.deed matches .finish _ true

def failed (m : Mark) : Bool := m.deed matches .finish _ false

/-- The circuit begins to admit trial calls. -/
def halfOpens (m : Mark) : Bool := m.before.phase = .opened ∧ m.after.phase = .halfOpen

/-- A half-open circuit closes because a call succeeded. -/
def closes (m : Mark) : Bool :=
  m.succeeded && (m.before.phase = .halfOpen && m.after.phase = .closed)

/-- The counts start from zero: the circuit is reset, or a call that succeeds closes it. -/
def zeroes (m : Mark) : Bool := m.deed = .reset || m.closes

/-- The timeout counts from here: a call that has ended opened the circuit, or it failed when the
circuit was open or half-open. -/
def restarts (m : Mark) : Bool :=
  m.ends && (m.before.phase ≠ .opened && m.after.phase = .opened) ||
    m.failed && m.before.phase ≠ .closed

/-- The calls that have ended since the counts were zero the last time. -/
def history (marks : List Mark) : List Mark := (marks.rtakeWhile fun m => !m.zeroes).filter ends

theorem history_concat (marks : List Mark) (m : Mark) :
    history (marks ++ [m]) =
      if m.zeroes then [] else if m.ends then history marks ++ [m] else history marks := by
  unfold history
  rw [List.rtakeWhile_concat]
  cases hz : m.zeroes with
  | true => simp
  | false => cases he : m.ends <;> simp [he]

theorem history_concat_of_zeroes {m : Mark} (h : m.zeroes = true) (marks : List Mark) :
    history (marks ++ [m]) = [] := by rw [history_concat, if_pos h]

theorem history_concat_enter {m : Mark} {p : Policy} {admitted : Bool}
    (h : m.deed = .enter p admitted) (marks : List Mark) :
    history (marks ++ [m]) = history marks := by
  rw [history_concat, if_neg (by simp [zeroes, closes, succeeded, h]), if_neg (by simp [ends, h])]

theorem history_concat_finish {m : Mark} {p : Policy} {ok : Bool} (h : m.deed = .finish p ok)
    (stays : m.closes = false) (marks : List Mark) :
    history (marks ++ [m]) = history marks ++ [m] := by
  rw [history_concat, if_neg (by simp [zeroes, h, stays]), if_pos (by simp [ends, h])]

/-- A mark among those up to `x` is `x`, or it is one of those before. -/
theorem last_or_earlier {before after marks : List Mark} {m x : Mark}
    (h : before ++ m :: after = marks ++ [x]) :
    before = marks ∧ m = x ∧ after = [] ∨
      ∃ rest, before ++ m :: rest = marks ∧ after = rest ++ [x] := by
  rcases List.eq_nil_or_concat after with rfl | ⟨rest, last, rfl⟩
  · obtain ⟨rfl, hm⟩ := List.append_inj' h rfl
    exact .inl ⟨rfl, List.singleton_inj.1 hm, rfl⟩
  · rw [List.concat_eq_append, ← List.cons_append, ← List.append_assoc] at h
    obtain ⟨same, last⟩ := List.append_inj' h rfl
    obtain rfl := List.singleton_inj.1 last
    exact .inr ⟨rest, same, List.concat_eq_append⟩

end Mark

/-! ## Lives -/

namespace Circuit

/-- The life of a circuit up to an instant: what has happened at it, and what it is like now. -/
inductive Life (name : String) : Nat → List Mark → Circuit → Prop
  | new (now : Nat) : Life name now [] {}
  | wait {now : Nat} {marks : List Mark} {c : Circuit} (h : Life name now marks c) (ms : Nat) :
    Life name (now + ms) marks c
  | mark {now : Nat} {marks : List Mark} {c c' : Circuit} {d : Deed} (h : Life name now marks c)
    (hd : Happens d now c c') : Life name now (marks ++ [⟨name, d, now, c, c'⟩]) c'

variable {name : String} {now : Nat} {marks before after : List Mark} {m : Mark} {c : Circuit}

theorem Life.time_le (h : Life name now marks c) (hm : m ∈ marks) : m.time ≤ now := by
  induction h with
  | new => cases hm
  | wait _ ms ih => exact Nat.le_trans (ih hm) (Nat.le_add_right ..)
  | mark _ _ ih =>
    rcases List.mem_append.1 hm with old | new
    · exact ih old
    · rw [List.mem_singleton.1 new]

/-- Up to each of its marks a life is a life. -/
theorem Life.split (h : Life name now (before ++ m :: after) c) :
    Life name m.time before m.before ∧ Happens m.deed m.time m.before m.after := by
  generalize hmarks : before ++ m :: after = marks at h
  induction h generalizing after with
  | new => simp at hmarks
  | wait _ ms ih => exact ih hmarks
  | mark life hd ih =>
    rcases Mark.last_or_earlier hmarks with ⟨rfl, rfl, -⟩ | ⟨rest, rfl, -⟩
    · exact ⟨life, hd⟩
    · exact ih rfl

/-- What holds right after a mark holds from then on, if it lasts while time passes and each later mark
keeps it. -/
theorem Life.since_induction {I : Nat → Circuit → Prop}
    (life : Life name now (before ++ m :: after) c) (h : I m.time m.after)
    (wait : ∀ {now c} (ms : Nat), I now c → I (now + ms) c)
    (keep : ∀ s ∈ after, Happens s.deed s.time s.before s.after → I s.time s.before →
      I s.time s.after) : I now c := by
  generalize hmarks : before ++ m :: after = marks at life
  induction life generalizing after with
  | new => simp at hmarks
  | wait _ ms ih => exact wait ms (ih keep hmarks)
  | mark _ hd ih =>
    rcases Mark.last_or_earlier hmarks with ⟨-, rfl, -⟩ | ⟨rest, rfl, rfl⟩
    · exact h
    · have earlier := ih (fun s hs => keep s (List.mem_append_left _ hs)) rfl
      exact keep _ (List.mem_append_right _ List.mem_cons_self) hd earlier

end Circuit

end GrantCache
