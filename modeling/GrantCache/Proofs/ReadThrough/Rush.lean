import GrantCache.Proofs.Flight.Line
import GrantCache.Proofs.ReadThrough.Reading
import Mathlib.Logic.Relation

/-!
# A rush on one key

Callers that read through the cache on one key with one flight, each taking its steps in between those
of the others. The steps are those of `ReadThrough.coalesced`, cut where a caller has to wait or where
others may get in between (`Rush.Step`); besides, anything may go on elsewhere that leaves the key
alone.

Two things hold at every moment whatever the callers compute. The line of callers that have asked for
the lock is made up of those that have given it back and those that are still there (`Row`), and each
caller's claim in the flight is at the stage at which the caller is (`Seats`). So who has noticed to
have the lock is at the front (`Seats.head?_of_owns`).
-/

namespace GrantCache

open Grants (Bounded Fades)
open ReadThrough (Ending claimant)

/-- Where a caller is. -/
inductive Post where
  | fresh
  /-- It has read and found nothing. -/
  | missed
  /-- It knows the slot. -/
  | arrived
  /-- It has asked for the lock. -/
  | waiting
  /-- It has the lock and is to read again. -/
  | holding
  /-- It computes until an instant. -/
  | computing (wake : Nat)
  /-- It has its answer and still has the lock. -/
  | done (e : Ending)
  /-- The lock is given back. -/
  | leaving (e : Ending)
  | ended (e : Ending)

namespace Post

/-- How a caller's read-through ends, once that is known. -/
def ending? : Post → Option Ending
  | done e | leaving e | ended e => some e
  | _ => none

/-- From when the lock is asked for until it is given back. -/
def isInLine : Post → Bool
  | waiting | holding | computing _ | done _ => true
  | _ => false

/-- From when it is the caller's turn until the lock is given back. -/
def owns : Post → Bool
  | holding | computing _ | done _ => true
  | _ => false

def isComputing : Post → Bool
  | computing _ => true
  | _ => false

/-- The caller has begun or skipped its computation and still has the lock. -/
def isBusy : Post → Bool
  | computing _ | done _ => true
  | _ => false

/-- The stage of the claim of a caller. -/
def Seats : Post → Option Stage → Prop
  | fresh, stage | missed, stage | ended _, stage => stage = none
  | arrived, stage => stage = some .arrived
  | waiting, stage => stage = some .queued ∨ stage = some .granted ∨ stage = some .owning
  | holding, stage | computing _, stage | done _, stage => stage = some .owning
  | leaving _, stage => stage = some .leaving

theorem owns_of_isComputing {p : Post} (h : p.isComputing = true) : p.owns = true := by
  revert h
  cases p <;> simp [isComputing, owns]

/-- How far a caller is from its end. -/
def distance : Post → Nat
  | fresh => 8
  | missed => 7
  | arrived => 6
  | waiting => 5
  | holding => 4
  | computing _ => 3
  | done _ => 2
  | leaving _ => 1
  | ended _ => 0

end Post

/-- Callers at work. The line is that of all who ever asked for the lock, in the order in which they
did, and `begun` lists those who have begun to compute, in the order in which they did. -/
structure Rush where
  service : Service
  post : Nat → Post := fun _ => .fresh
  line : List Nat := []
  begun : List Nat := []

namespace Rush

/-- A caller gets to a post, and the service to a state. -/
def put (i : Nat) (p : Post) (s : Service) (x : Rush) : Rush :=
  { x with service := s, post := fun j => if j = i then p else x.post j }

/-- The service after a step in its flight. -/
def fly (m : Flight.Move) (x : Rush) : Service :=
  { x.service with flight := x.service.flight.step m }

def stage? (i : Nat) (x : Rush) : Option Stage := x.service.flight.stage? (claimant i)

/-- What can happen next. The last case is about everything that callers of other keys, sweepers and
the clock do: the entry of the key in question at most goes, and what can be read stays where nobody
computes. -/
inductive Step (r : ReadThrough) (cs : List Computation) : Rush → Rush → Prop
  | hit {x i v s} (here : x.post i = .fresh) (caller : i < cs.length)
      (read : r.hit? x.service = (some v, s)) : Step r cs x (x.put i (.ended ⟨false, .ok v⟩) s)
  | miss {x i s} (here : x.post i = .fresh) (caller : i < cs.length)
      (read : r.hit? x.service = (none, s)) : Step r cs x (x.put i .missed s)
  | arrive {x i} (here : x.post i = .missed) :
      Step r cs x (x.put i .arrived (x.fly (.arrive (claimant i) r.key)))
  | join {x i} (here : x.post i = .arrived) :
      Step r cs x { x.put i .waiting (x.fly (.join (claimant i))) with line := x.line ++ [i] }
  | notice {x i} (here : x.post i = .waiting)
      (turn : x.stage? i = some .granted ∨ x.stage? i = some .owning) :
      Step r cs x (x.put i .holding (x.fly (.run (claimant i))))
  | reread {x i v s} (here : x.post i = .holding) (read : r.hit? x.service = (some v, s)) :
      Step r cs x (x.put i (.done ⟨false, .ok v⟩) s)
  | compute {x i c s} (here : x.post i = .holding) (own : cs[i]? = some c)
      (read : r.hit? x.service = (none, s)) :
      Step r cs x { x.put i (.computing (s.now + c.delay)) s with begun := x.begun ++ [i] }
  | conclude {x i c e s wake} (here : x.post i = .computing wake) (own : cs[i]? = some c)
      (due : wake ≤ x.service.now) (ends : r.conclude c.outcome x.service = (some e, s)) :
      Step r cs x (x.put i (.done e) s)
  | unlock {x i e} (here : x.post i = .done e) :
      Step r cs x (x.put i (.leaving e) (x.fly (.unlock (claimant i))))
  | forget {x i e} (here : x.post i = .leaving e) :
      Step r cs x (x.put i (.ended e) (x.fly (.forget (claimant i))))
  | elsewhere {x} {s : Service} (flight : s.flight = x.service.flight) (bounded : s.grants.Bounded)
      (fades : Fades r.key x.service.grants s.grants)
      (stays : (∀ i, (x.post i).isComputing = false) → ∀ v,
        r.readable? x.service.grants = some v → r.readable? s.grants = some v) :
      Step r cs x { x with service := s }

variable {r : ReadThrough} {cs : List Computation} {x y : Rush} {i j : Nat} {p : Post}
  {s : Service} {gone here : List Nat}

@[simp] theorem post_put (i j : Nat) (p : Post) (s : Service) (x : Rush) :
    (x.put i p s).post j = if j = i then p else x.post j := rfl

@[simp] theorem service_put (i : Nat) (p : Post) (s : Service) (x : Rush) :
    (x.put i p s).service = s := rfl

@[simp] theorem line_put (i : Nat) (p : Post) (s : Service) (x : Rush) :
    (x.put i p s).line = x.line := rfl

@[simp] theorem begun_put (i : Nat) (p : Post) (s : Service) (x : Rush) :
    (x.put i p s).begun = x.begun := rfl

/-! ## The line of callers -/

/-- Callers go by different names. -/
theorem claimant_injective : Function.Injective claimant := by
  intro i j same
  have digits : Numeral.digits i = Numeral.digits j := by
    simpa [claimant, Numeral.text] using congrArg String.toList same
  rw [← Numeral.value_digits i, digits, Numeral.value_digits]

/-- The line of all who have asked for the lock is those who are gone from it and those who are here. -/
structure Row (count : Nat) (x : Rush) (gone here : List Nat) : Prop where
  line : x.line = gone ++ here
  nodup : x.line.Nodup
  inLine : ∀ i, i ∈ here ↔ (x.post i).isInLine = true
  left : ∀ i ∈ gone, (x.post i).ending?.isSome = true
  callers : ∀ i, x.post i ≠ .fresh → i < count

theorem Row.nodup_here {count : Nat} (h : Row count x gone here) : here.Nodup := by
  have nodup := h.nodup
  rw [h.line] at nodup
  exact (List.nodup_append.1 nodup).2.1

/-- A caller that stays in or out of the line changes nothing about it. -/
theorem Row.put {count : Nat} (h : Row count x gone here) (caller : i < count)
    (same : p.isInLine = (x.post i).isInLine)
    (ending : (x.post i).ending?.isSome = true → p.ending?.isSome = true) :
    Row count (x.put i p s) gone here := by
  refine ⟨h.line, h.nodup, fun j => ?_, fun j hj => ?_, fun j fresh => ?_⟩
  · rw [h.inLine, post_put]
    split
    · rename_i own
      rw [own, same]
    · rfl
  · rw [post_put]
    split
    · rename_i own
      exact ending (own ▸ h.left j hj)
    · exact h.left j hj
  · rw [post_put] at fresh
    split at fresh
    · rename_i own
      exact own ▸ caller
    · exact h.callers j fresh

/-- Who has not asked for the lock is not in line, and was not. -/
theorem Row.not_mem_line {count : Nat} (h : Row count x gone here)
    (out : (x.post i).isInLine = false) (open_ : (x.post i).ending? = none) : i ∉ x.line := by
  rw [h.line, List.mem_append, not_or]
  constructor
  · intro left
    have := h.left i left
    rw [open_] at this
    cases this
  · rw [h.inLine, out]
    exact Bool.false_ne_true

/-- Who joins is the last of those who are here. -/
theorem Row.join {count : Nat} (h : Row count x gone here) (arrived : x.post i = .arrived) :
    Row count { x.put i .waiting s with line := x.line ++ [i] } gone (here ++ [i]) := by
  have new : i ∉ x.line := h.not_mem_line (by rw [arrived]; rfl) (by rw [arrived]; rfl)
  refine ⟨by rw [h.line, List.append_assoc], ?_, fun j => ?_, fun j hj => ?_, fun j fresh => ?_⟩
  · exact List.nodup_append_comm.1 (List.nodup_cons.2 ⟨new, h.nodup⟩)
  · rw [List.mem_append, List.mem_singleton, h.inLine]
    by_cases own : j = i
    · simp [own, Post.isInLine]
    · simp [own]
  · have other : j ≠ i := by
      rintro rfl
      exact new (h.line ▸ List.mem_append_left _ hj)
    simpa [other] using h.left j hj
  · by_cases own : j = i
    · rw [own]
      exact h.callers i (by simp [arrived])
    · exact h.callers j (by simpa [own] using fresh)

/-- Who gives the lock back was the first of those who are here. -/
theorem Row.unlock {count : Nat} {e : Ending} (h : Row count x gone (i :: here))
    (done : x.post i = .done e) : Row count (x.put i (.leaving e) s) (gone ++ [i]) here := by
  obtain ⟨behind, _⟩ := List.nodup_cons.1 h.nodup_here
  refine ⟨by rw [line_put, h.line]; simp, h.nodup, fun j => ?_, fun j hj => ?_, fun j fresh => ?_⟩
  · by_cases own : j = i
    · simp [own, Post.isInLine, behind]
    · have before := h.inLine j
      simpa [own] using before
  · by_cases own : j = i
    · simp [own, Post.ending?]
    · have before : j ∈ gone := by simpa [own] using hj
      simpa [own] using h.left j before
  · by_cases own : j = i
    · rw [own]
      exact h.callers i (by simp [done])
    · exact h.callers j (by simpa [own] using fresh)

/-! ## Callers and their claims -/

/-- Each caller's claim is at the stage at which the caller is, those in line are in the flight's line,
and nobody else has a claim. -/
structure Seats (r : ReadThrough) (x : Rush) (here : List Nat) : Prop where
  lined : x.service.flight.Lined r.key (here.map claimant)
  seats : ∀ i, (x.post i).Seats (x.stage? i)
  named : ∀ id, (∀ i, id ≠ claimant i) → x.service.flight.stage? id = none

theorem Seats.seat (h : Seats r x here) (post : x.post i = p) : p.Seats (x.stage? i) :=
  post ▸ h.seats i

/-- Who has noticed to have the lock is at the front. -/
theorem Seats.head?_of_owns (h : Seats r x here) (owns : (x.post i).owns = true) :
    here.head? = some i := by
  have owning : x.service.flight.stage? (claimant i) = some .owning := by
    have seat := h.seats i
    revert seat owns
    cases x.post i <;> simp [Post.owns, Post.Seats, stage?]
  have first := h.lined.head?_of_lock owning rfl
  rw [List.head?_map] at first
  obtain ⟨j, front, same⟩ := Option.map_eq_some_iff.1 first
  rwa [← claimant_injective same]

/-- A caller gets to a post with its claim, and the others keep theirs, or one of them is granted what
it waits for. -/
theorem Seats.put (h : Seats r x here) {here' : List Nat}
    (lined : s.flight.Lined r.key (here'.map claimant))
    (own : p.Seats (s.flight.stage? (claimant i)))
    (others : ∀ id, id ≠ claimant i → s.flight.stage? id = x.service.flight.stage? id ∨
      x.service.flight.stage? id = some .queued ∧ s.flight.stage? id = some .granted) :
    Seats r (x.put i p s) here' := by
  refine ⟨lined, fun j => ?_, fun id nobody => ?_⟩
  · rw [post_put]
    split
    · rename_i same
      rw [same]
      exact own
    · rename_i other
      have seat := h.seats j
      rcases others (claimant j) (fun same => other (claimant_injective same)) with same | ⟨q, g⟩
      · rw [stage?, service_put, same]
        exact seat
      · -- Only who waits can be queued, and being granted is waiting, too.
        rw [stage?, q] at seat
        rw [stage?, service_put, g]
        revert seat
        cases x.post j <;> simp [Post.Seats]
  · rw [service_put]
    have none := h.named id nobody
    rcases others id (nobody i) with same | ⟨queued, _⟩
    · rw [same, none]
    · cases none.symm.trans queued

/-- Who moves on without touching the flight. -/
theorem Seats.stay (h : Seats r x here) (flight : s.flight = x.service.flight)
    (same : p.Seats (x.stage? i)) : Seats r (x.put i p s) here := by
  refine h.put (flight ▸ h.lined) ?_ fun id _ => .inl (by rw [flight])
  rw [flight]
  exact same

/-- A caller that missed and arrives has a claim, and is not in line yet. -/
theorem Seats.arrive (h : Seats r x here) (missed : x.post i = .missed) :
    Seats r (x.put i .arrived (x.fly (.arrive (claimant i) r.key))) here := by
  have none : x.stage? i = none := h.seat missed
  have stage := h.lined.stage?_arrive none
  exact h.put (h.lined.arrive none) ((stage _).trans (if_pos rfl)) fun id other =>
    .inl ((stage id).trans (if_neg other))

/-- A caller that asks for the lock joins the line with its claim. -/
theorem Seats.join (h : Seats r x here) (arrived : x.post i = .arrived) :
    Seats r (x.put i .waiting (x.fly (.join (claimant i)))) (here ++ [i]) := by
  have at_ : x.stage? i = some .arrived := h.seat arrived
  have stage := h.lined.stage?_join at_
  refine h.put (by rw [List.map_append]; exact h.lined.join at_) ?_ fun id other => .inl ?_
  · have own : (x.fly (.join (claimant i))).flight.stage? (claimant i) = _ :=
      (stage _).trans (if_pos rfl)
    rw [own]
    cases here <;> simp [Post.Seats]
  · exact (stage id).trans (if_neg other)

/-- A caller whose turn has come may begin. -/
theorem Seats.notice (h : Seats r x here)
    (turn : x.stage? i = some .granted ∨ x.stage? i = some .owning) :
    Seats r (x.put i .holding (x.fly (.run (claimant i)))) here := by
  obtain ⟨lined, stage⟩ := h.lined.run turn
  exact h.put lined ((stage _).trans (if_pos rfl)) fun id other =>
    .inl ((stage id).trans (if_neg other))

/-- The first in line gives the lock back, and the others move up. -/
theorem Seats.unlock {e : Ending} (h : Seats r x (i :: here)) (done : x.post i = .done e) :
    Seats r (x.put i (.leaving e) (x.fly (.unlock (claimant i)))) here := by
  have owning : x.stage? i = some .owning := h.seat done
  have stage := h.lined.stage?_unlock owning
  refine h.put (h.lined.unlock owning) ?_ fun id other => ?_
  · exact ((stage _).resolve_right fun granted => granted.1 rfl).trans (if_pos rfl)
  · exact (stage id).imp (fun same => same.trans (if_neg other)) fun granted => granted.2

/-- A caller that has ended has no claim any more. -/
theorem Seats.forget {e : Ending} (h : Seats r x here) (leaving : x.post i = .leaving e) :
    Seats r (x.put i (.ended e) (x.fly (.forget (claimant i)))) here := by
  have at_ : x.stage? i = some .leaving := h.seat leaving
  have stage := Flight.Lined.stage?_forget at_
  exact h.put (h.lined.forget at_) ((stage _).trans (if_pos rfl)) fun id other =>
    .inl ((stage id).trans (if_neg other))

/-- Only the first in line can be busy. -/
theorem Seats.not_busy_behind (h : Seats r x (i :: here)) (nodup : (i :: here).Nodup) :
    ∀ j ∈ here, (x.post j).isBusy = false := by
  intro j behind
  refine eq_false_of_ne_true fun busy => ?_
  have owns : (x.post j).owns = true := by
    revert busy
    cases x.post j <;> simp [Post.isBusy, Post.owns]
  obtain rfl := Option.some.inj (h.head?_of_owns owns)
  exact (List.nodup_cons.1 nodup).1 behind

end Rush

end GrantCache
