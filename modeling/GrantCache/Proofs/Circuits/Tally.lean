import GrantCache.Proofs.Circuits.Traffic

/-!
# What a circuit counts

The counts of a circuit say how the calls have ended since the counts were zero the last time, and
nothing else: how many there were, how many failed and how many succeeded, and how many succeeded in
a row up to now. The instant from which the timeout counts is that of the last of them that opened
the circuit or failed while it was not closed; a closed circuit has none, any other has one
(`counts_of_history`).
-/

namespace GrantCache

open Circuit (Happens Life)

namespace Mark

/-- The instant from which the timeout counts after calls have ended. -/
def lastRestart (h : List Mark) : Option Nat := (h.filter restarts).getLast?.map time

theorem lastRestart_concat (h : List Mark) (m : Mark) :
    lastRestart (h ++ [m]) = if m.restarts then some m.time else lastRestart h := by
  unfold lastRestart
  rw [List.filter_append]
  cases hm : m.restarts <;> simp [hm]

/-- The counts of a circuit are those of calls that have ended. -/
structure Counted (h : List Mark) (c : Circuit) : Prop where
  requests : c.requests = h.length
  failures : c.failures = h.countP failed
  successes : c.successes = h.countP succeeded
  streak : c.streak = (h.rtakeWhile succeeded).length

theorem Counted.count {h : List Mark} {c : Circuit} (hc : Counted h c) {m : Mark} {p : Policy}
    {ok : Bool} (hm : m.deed = .finish p ok) : Counted (h ++ [m]) (c.count ok) := by
  obtain ⟨requests, failures, successes, streak⟩ := hc
  have success : m.succeeded = ok := by cases ok <;> simp [succeeded, hm]
  have failure : m.failed = !ok := by cases ok <;> simp [failed, hm]
  refine ⟨?_, ?_, ?_, ?_⟩
  · simp [Circuit.count, requests]
  · cases ok <;> simp [Circuit.count, List.countP_append, failures, failure]
  · cases ok <;> simp [Circuit.count, List.countP_append, successes, success]
  · rw [List.rtakeWhile_concat, success]
    cases ok <;> simp [Circuit.count, streak]

/-- All that a circuit keeps is what has become of the calls that have ended. -/
structure Tallies (h : List Mark) (c : Circuit) : Prop extends Counted h c where
  lastFailure : c.lastFailure = lastRestart h
  closed : c.lastFailure = none ↔ c.phase = .closed

theorem tallies_new : Tallies [] {} := ⟨⟨rfl, rfl, rfl, rfl⟩, rfl, by simp⟩

variable {name : String} {now : Nat} {h marks : List Mark} {c c' : Circuit} {d : Deed} {m : Mark}

/-- A call has ended and the timeout counts on as before. -/
theorem Tallies.goOn (ht : Tallies h c) {p : Policy} {ok : Bool} (hm : m.deed = .finish p ok)
    (still : m.restarts = false) : Tallies (h ++ [m]) (c.count ok) := by
  refine ⟨ht.count hm, ?_, ht.closed⟩
  rw [lastRestart_concat, still]
  exact ht.lastFailure

/-- A call has ended and the timeout counts from now. -/
theorem Tallies.restart (ht : Tallies h c) {p : Policy} {ok : Bool} (hm : m.deed = .finish p ok)
    (anew : m.restarts = true) : Tallies (h ++ [m]) ((c.count ok).trippedAt m.time) := by
  have counted := ht.count hm
  refine ⟨⟨counted.requests, counted.failures, counted.successes, counted.streak⟩, ?_, ?_⟩
  · rw [lastRestart_concat, if_pos anew]
    rfl
  · simp

/-- Whatever happens at a circuit, its counts go with its history. -/
theorem Tallies.step (ht : Tallies (history marks) c) (hd : Happens d now c c') :
    Tallies (history (marks ++ [⟨name, d, now, c, c'⟩])) c' := by
  cases hd with
  | pass hp =>
    rw [history_concat_enter rfl]
    exact ht
  | refuse hp tired =>
    rw [history_concat_enter rfl]
    exact ht
  | probe hp rested =>
    rw [history_concat_enter rfl]
    refine ⟨⟨ht.requests, ht.failures, ht.successes, ht.streak⟩, ht.lastFailure, ?_⟩
    -- An open circuit has an instant from which its timeout counts.
    have open_ : ¬ c.lastFailure = none := fun none => by
      have closed := ht.closed.1 none
      rw [hp] at closed
      cases closed
    simp [open_]
  | stay hp calm =>
    rw [history_concat_finish rfl (by simp [closes, hp])]
    exact ht.goOn rfl (by simp [restarts, failed, hp])
  | trip hp trips =>
    rw [history_concat_finish rfl (by simp [closes, hp])]
    exact ht.restart rfl (by simp [restarts, ends, hp])
  | trial hp few =>
    rw [history_concat_finish rfl (by simp [closes, hp])]
    exact ht.goOn rfl (by simp [restarts, failed, hp])
  | close hp enough =>
    rw [history_concat_of_zeroes (by simp [zeroes, closes, succeeded, hp])]
    exact tallies_new
  | late hp =>
    rw [history_concat_finish rfl (by simp [closes, hp])]
    exact ht.goOn rfl (by simp [restarts, failed, hp])
  | fail hp =>
    rw [history_concat_finish rfl (by simp [closes, succeeded])]
    exact ht.restart rfl (by simp [restarts, failed, hp])
  | reset =>
    rw [history_concat_of_zeroes (by simp [zeroes])]
    exact tallies_new

end Mark

theorem Circuit.Life.tallies {name : String} {now : Nat} {marks : List Mark} {c : Circuit}
    (life : Life name now marks c) : Mark.Tallies (Mark.history marks) c := by
  induction life with
  | new => exact Mark.tallies_new
  | wait _ _ ih => exact ih
  | mark _ hd ih => exact ih.step hd

namespace Traffic

/-- In every state that a run reaches, the counts of each circuit are those of the calls under its
name that have ended since the counts were zero: by the creation of the circuit, by a reset, or by the
success that closed it when it was half-open. The timeout counts from the last of those calls that
opened the circuit or failed while it was not closed; so an open circuit always has an instant from
which its timeout counts. A call that begins, admitted or refused, or that is given up, adds nothing to
what has ended, and so nothing to the counts. -/
theorem counts_of_history (p : Policy) (g : Grants) (turns : List Turn) (name : String) :
    let t := (start p g).play turns
    let c := t.circuit name
    let h := t.history name
    c.requests = h.length ∧ c.failures = h.countP Mark.failed ∧
      c.successes = h.countP Mark.succeeded ∧ c.streak = (h.rtakeWhile Mark.succeeded).length ∧
      (c.lastFailure = none ↔ c.phase = .closed) ∧
      c.lastFailure = (h.filter Mark.restarts).getLast?.map Mark.time ∧
      (c.phase = .opened → c.lastFailure.isSome) ∧
      (∀ at_ o, (t.turn (.begin at_ o)).history name = h) ∧
      ∀ i, (t.turn (.abandon i)).history name = h ∧ (t.turn (.abandon i)).circuit name = c := by
  intro t c h
  have tallies : Mark.Tallies h c := (life_play p g turns name).tallies
  refine ⟨tallies.requests, tallies.failures, tallies.successes, tallies.streak, tallies.closed,
    tallies.lastFailure, fun opened => ?_, fun at_ o => history_begin at_ o t name, fun i => ?_⟩
  · rw [Option.isSome_iff_ne_none]
    intro none
    have closed := tallies.closed.1 none
    rw [opened] at closed
    cases closed
  · obtain ⟨record, grants⟩ := turn_abandon i t
    rw [history, log, circuit, record, grants]
    exact ⟨rfl, rfl⟩

end Traffic

end GrantCache
