import GrantCache.Proofs.ReadThrough.Answers
import Mathlib.Algebra.Order.BigOperators.Group.Finset

/-!
# How a rush ends

From wherever a rush has come, all callers can get to their end (`Kept.finishes`): somebody is always
able to take a step, and every step of a caller brings it nearer (`Kept.advance`). When all have ended,
the first of the line have failed, and the next one, if there is one, has succeeded for everybody else
(`Kept.outcome`).
-/

namespace GrantCache.Rush

open Grants (Bounded Fades)
open ReadThrough (Ending claimant)
open Relation (ReflTransGen)

variable {r : ReadThrough} {cs : List Computation} {x y : Rush} {i j : Nat} {p : Post}
  {s start : Service} {gone here : List Nat}

/-! ## The beginning -/

theorem kept_start (slots : start.flight.slots = []) (claims : start.flight.claims = [])
    (bounded : start.grants.Bounded) (unreadable : r.readable? start.grants = none) :
    Kept r cs start { service := start } [] [] := by
  have absent (id : String) : start.flight.stage? id = none := by
    rw [Flight.stage?, Flight.claim?, claims]
    rfl
  exact ⟨⟨Flight.lined_of_empty slots claims r.key, fun i => absent (claimant i),
      fun id _ => absent id⟩,
    ⟨rfl, List.nodup_nil, by simp [Post.isInLine], by simp, by simp⟩,
    bounded, by simp, by simp [Post.ending?],
    .inl ⟨unreadable, .refl r.key start.grants, rfl, by simp⟩⟩

theorem Kept.steps (timely : r.Timely)
    (fits : ∀ c ∈ cs, ∀ v, c.outcome = .ok v → r.shape.fits v = true)
    (h : Kept r cs start x gone here) (steps : ReflTransGen (Step r cs) x y) :
    ∃ gone' here', Kept r cs start y gone' here' := by
  induction steps with
  | refl => exact ⟨gone, here, h⟩
  | tail _ step ih =>
    obtain ⟨_, _, kept⟩ := ih
    exact kept.step timely fits step

/-! ## On the way -/

/-- Those who have begun to compute are the beginning of the line. -/
theorem Kept.begun_prefix (h : Kept r cs start x gone here) : x.begun <+: x.line := by
  rcases h.told.phase with pending | ⟨_, settled⟩
  · rw [pending.begun, h.row.line, List.prefix_append_right_inj]
    cases here with
    | nil => exact List.prefix_refl _
    | cons i rest =>
      rw [filter_busy_front (h.seats.not_busy_behind h.row.nodup_here)]
      split
      · exact ⟨rest, rfl⟩
      · exact List.nil_prefix
  · exact settled.first

/-- Only one caller computes at a time. -/
theorem Kept.one_computing (h : Kept r cs start x gone here) (hi : (x.post i).isComputing = true)
    (hj : (x.post j).isComputing = true) : i = j :=
  h.alone (Post.owns_of_isComputing hi) (Post.owns_of_isComputing hj)

/-! ## The end -/

/-- All callers have their answers. -/
def Over (count : Nat) (x : Rush) : Prop := ∀ i < count, ∃ e, x.post i = .ended e

/-- How a rush went that is over. The first callers of the line have computed one after another, have
failed, and were told so. Either these are all callers, and the entry of the key is what it was or has
gone; or the next one in line has computed as the last one and succeeded, its value can be read, and it
was told to all others, in line or not. -/
structure Outcome (r : ReadThrough) (cs : List Computation) (start : Service) (x : Rush) : Prop where
  once : x.line.Nodup
  went : ∃ failed, (∀ i ∈ failed, ∃ c message, cs[i]? = some c ∧ c.outcome = .error message ∧
      x.post i = .ended ⟨true, .error message⟩) ∧
    ((x.line = failed ∧ x.begun = failed ∧ (∀ i < cs.length, i ∈ failed) ∧
        Fades r.key start.grants x.service.grants) ∨
      ∃ i later c v, x.line = failed ++ i :: later ∧ x.begun = failed ++ [i] ∧ cs[i]? = some c ∧
        c.outcome = .ok v ∧ x.post i = .ended ⟨true, .ok v⟩ ∧
        (∀ j < cs.length, j ∉ failed → j ≠ i → x.post j = .ended ⟨false, .ok v⟩) ∧
        r.readable? x.service.grants = some v)
  idle : x.service.flight.inFlight = 0

theorem Kept.inFlight_eq_zero (h : Kept r cs start x gone here) (allEnded : x.Over cs.length) :
    x.service.flight.inFlight = 0 := by
  refine h.seats.lined.inFlight_eq_zero fun id => ?_
  by_cases named : ∃ i, id = claimant i
  · obtain ⟨i, rfl⟩ := named
    have seat := h.seats.seats i
    by_cases caller : i < cs.length
    · obtain ⟨e, ended⟩ := allEnded i caller
      rwa [ended] at seat
    · have fresh : x.post i = .fresh := by
        by_contra moved
        exact caller (h.row.callers i moved)
      rwa [fresh] at seat
  · exact h.seats.named id fun i same => named ⟨i, same⟩

theorem Kept.here_eq_nil (h : Kept r cs start x gone here) (allEnded : x.Over cs.length) :
    here = [] := by
  refine List.eq_nil_iff_forall_not_mem.2 fun i hi => ?_
  have inLine := (h.row.inLine i).1 hi
  have moved : x.post i ≠ .fresh := by
    intro fresh
    rw [fresh] at inLine
    cases inLine
  obtain ⟨e, ended⟩ := allEnded i (h.row.callers i moved)
  rw [ended] at inLine
  cases inLine

/-- Who has begun to compute is told in the end how that went. -/
theorem Kept.ended_of_begun {c : Computation} (h : Kept r cs start x gone here)
    (allEnded : x.Over cs.length) (ran : i ∈ x.begun) (own : cs[i]? = some c) :
    x.post i = .ended ⟨true, c.outcome⟩ := by
  obtain ⟨e, ended⟩ := allEnded i (List.getElem?_eq_some_iff.1 own).1
  obtain ⟨_, c', own', rfl⟩ := (h.told.endings i e (by rw [ended]; rfl)).resolve_right
    fun other => other.1 ran
  obtain rfl := Option.some.inj (own.symm.trans own')
  exact ended

theorem Kept.ended_of_fails (h : Kept r cs start x gone here) (allEnded : x.Over cs.length)
    (ran : i ∈ x.begun) (fails : Fails cs i) : ∃ c message, cs[i]? = some c ∧
      c.outcome = .error message ∧ x.post i = .ended ⟨true, .error message⟩ := by
  obtain ⟨c, message, own, outcome⟩ := fails
  exact ⟨c, message, own, outcome, by rw [h.ended_of_begun allEnded ran own, outcome]⟩

theorem Kept.outcome (h : Kept r cs start x gone here) (allEnded : x.Over cs.length) :
    Outcome r cs start x := by
  have none := h.here_eq_nil allEnded
  have line := h.row.line
  refine ⟨h.row.nodup, ?_, h.inFlight_eq_zero allEnded⟩
  rcases h.told.phase with pending | ⟨v, settled⟩
  -- The value never became readable: all who ran failed, and all callers ran.
  · have begun := pending.begun
    rw [none] at line begun
    have idle (i : Nat) : (x.post i).isComputing = false := by
      refine eq_false_of_ne_true fun computes => ?_
      have inLine : i ∈ here := by
        rw [h.row.inLine]
        revert computes
        cases x.post i <;> simp [Post.isComputing, Post.isInLine]
      rw [none] at inLine
      cases inLine
    refine ⟨x.begun, fun i ran => h.ended_of_fails allEnded ran (pending.failed i ran (idle i)),
      .inl ⟨line.trans begun.symm, rfl, fun i caller => ?_, pending.fades⟩⟩
    obtain ⟨e, ended⟩ := allEnded i caller
    refine ((h.told.endings i e (by rw [ended]; rfl)).resolve_right ?_).1
    rintro ⟨_, v, readable, _⟩
    cases pending.unreadable.symm.trans readable
  -- One caller computed the value, and those before it failed. All others found it.
  · obtain ⟨failed, i, c, begun, fails, own, outcome⟩ := settled.won
    obtain ⟨later, first⟩ := settled.first
    refine ⟨failed, fun j hj => h.ended_of_fails allEnded ?_ (fails j hj), .inr
      ⟨i, later, c, v, ?_, begun, own, outcome, ?_, fun j caller other apart => ?_,
        settled.readable⟩⟩
    · rw [begun]
      exact List.mem_append_left _ hj
    · rw [← first, begun, List.append_assoc]
      rfl
    · rw [h.ended_of_begun allEnded (by rw [begun]; simp) own, outcome]
    · obtain ⟨e, ended⟩ := allEnded j caller
      obtain ⟨_, v', readable, rfl⟩ := (h.told.endings j e (by rw [ended]; rfl)).resolve_left
        fun ran => by simp [begun, other, apart] at ran
      obtain rfl := Option.some.inj (settled.readable.symm.trans readable)
      exact ended

/-! ## Getting there -/

/-- How far all callers are from their end. -/
def rank (count : Nat) (x : Rush) : Nat := ∑ i ∈ Finset.range count, (x.post i).distance

theorem rank_put {count : Nat} (caller : i < count) (nearer : p.distance < (x.post i).distance) :
    (x.put i p s).rank count < x.rank count := by
  refine Finset.sum_lt_sum (fun j _ => ?_) ⟨i, Finset.mem_range.2 caller, by simpa using nearer⟩
  rw [post_put]
  split
  · rename_i own
    rw [own]
    exact nearer.le
  · exact Nat.le_refl _

/-- A caller that has not ended and does not wait for others can take a step; if it computes, time may
have to pass first. -/
theorem Kept.advance_of (timely : r.Timely) (h : Kept r cs start x gone here) (caller : i < cs.length)
    (going : ∀ e, x.post i ≠ .ended e)
    (turn : x.post i = .waiting → x.stage? i = some .granted ∨ x.stage? i = some .owning) :
    ∃ y, ReflTransGen (Step r cs) x y ∧ y.rank cs.length < x.rank cs.length := by
  cases post : x.post i with
  | fresh =>
    rcases read : r.hit? x.service with ⟨_ | v, s⟩
    · exact ⟨_, .single (.miss post caller read), rank_put caller (by rw [post]; decide)⟩
    · exact ⟨_, .single (.hit post caller read), rank_put caller (by rw [post]; simp [Post.distance])⟩
  | missed => exact ⟨_, .single (.arrive post), rank_put caller (by rw [post]; decide)⟩
  | arrived =>
    exact ⟨_, .single (.join post),
      rank_put (s := x.fly (.join (claimant i))) caller (by rw [post]; decide)⟩
  | waiting => exact ⟨_, .single (.notice post (turn post)), rank_put caller (by rw [post]; decide)⟩
  | holding =>
    rcases read : r.hit? x.service with ⟨_ | v, s⟩
    · exact ⟨_, .single (.compute post (List.getElem?_eq_getElem caller) read),
        rank_put (s := s) caller (by rw [post]; simp [Post.distance])⟩
    · exact ⟨_, .single (.reread post read), rank_put caller (by rw [post]; simp [Post.distance])⟩
  | computing wake =>
    -- The clock may still be short of the end of the computation, and is moved there first.
    have own := List.getElem?_eq_getElem caller
    let later : Rush := { x with service := x.service.moveTo wake }
    have bounded : later.service.grants.Bounded := h.told.bounded
    have pass : Step r cs x later := .elsewhere rfl bounded (Service.fades_moveTo r.key wake x.service)
      fun idle => by
        have none := idle i
        rw [post] at none
        cases none
    have ends : ∃ e s, r.conclude cs[i].outcome later.service = (some e, s) := by
      cases outcome : cs[i].outcome with
      | error message => exact ⟨_, _, ReadThrough.conclude_error message _ r⟩
      | ok v => exact ⟨_, _, ReadThrough.conclude_ok bounded timely v⟩
    obtain ⟨e, s, ends⟩ := ends
    have due : wake ≤ later.service.now := le_max_right _ _
    have conclude : Step r cs later (later.put i (.done e) s) := .conclude post own due ends
    refine ⟨_, (ReflTransGen.single pass).tail conclude, ?_⟩
    exact rank_put (x := later) caller (by rw [show later.post i = _ from post]; simp [Post.distance])
  | done e => exact ⟨_, .single (.unlock post), rank_put caller (by rw [post]; simp [Post.distance])⟩
  | leaving e => exact ⟨_, .single (.forget post), rank_put caller (by rw [post]; simp [Post.distance])⟩
  | ended e => exact (going e post).elim

/-- As long as somebody has not ended, somebody can get on. -/
theorem Kept.advance (timely : r.Timely) (h : Kept r cs start x gone here)
    (unfinished : ¬ x.Over cs.length) :
    ∃ y, ReflTransGen (Step r cs) x y ∧ y.rank cs.length < x.rank cs.length := by
  obtain ⟨i, caller, going⟩ : ∃ i < cs.length, ∀ e, x.post i ≠ .ended e := by
    simpa [Over] using unfinished
  by_cases waiting : x.post i = .waiting
  · -- Who waits is behind somebody who has the lock.
    have inLine : i ∈ here := (h.row.inLine i).2 (by rw [waiting]; rfl)
    cases here with
    | nil => cases inLine
    | cons first rest =>
      have lock := h.seats.lined.lock_of_head
      have firstInLine := (h.row.inLine first).1 List.mem_cons_self
      refine h.advance_of timely (h.row.callers first fun fresh => ?_) (fun e ended => ?_)
        fun _ => lock
      · rw [fresh] at firstInLine
        cases firstInLine
      · rw [ended] at firstInLine
        cases firstInLine
  · exact h.advance_of timely caller going fun waits => (waiting waits).elim

/-- All callers can get to their end. -/
theorem Kept.finishes (timely : r.Timely)
    (fits : ∀ c ∈ cs, ∀ v, c.outcome = .ok v → r.shape.fits v = true)
    (h : Kept r cs start x gone here) :
    ∃ y, ReflTransGen (Step r cs) x y ∧ y.Over cs.length := by
  induction far : x.rank cs.length using Nat.strongRecOn generalizing x gone here with
  | _ n ih =>
    by_cases allEnded : x.Over cs.length
    · exact ⟨x, .refl, allEnded⟩
    · obtain ⟨y, steps, nearer⟩ := h.advance timely allEnded
      obtain ⟨_, _, kept⟩ := h.steps timely fits steps
      obtain ⟨z, more, finished⟩ := ih _ (far ▸ nearer) kept rfl
      exact ⟨z, steps.trans more, finished⟩

end GrantCache.Rush
