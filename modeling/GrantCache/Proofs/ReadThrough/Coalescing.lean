import GrantCache.Proofs.ReadThrough.Turns

/-!
# One computation for all who ask

Of callers that miss the same key together only those compute that are needed to get a value: however
their steps come in between one another, they compute one at a time and in the order of the line, until
one succeeds, and everybody else gets what that one has computed (`coalesced_computes_once`). The run of
`ReadThrough.coalesced` is one of these (`exists_coalesced`).
-/

namespace GrantCache.ReadThrough

open Rush (Over Outcome Answered exists_coalesceEach)
open Relation (ReflTransGen)
open Flight (Staffed)

variable {r : ReadThrough} {cs : List Computation} {s : Service}

/-- The endings of callers that are in order already. -/
theorem inOrder_zip_range (endings : List Ending) :
    inOrder ((List.range endings.length).zip endings) = endings := by
  have sorted : ((List.range endings.length).zip endings).Pairwise
      fun a b => decide (a.1 ≤ b.1) = true := by
    have numbers : (((List.range endings.length).zip endings).map Prod.fst).Pairwise (· < ·) := by
      rw [List.map_fst_zip (by simp)]
      exact List.pairwise_lt_range
    exact (List.pairwise_map.1 numbers).imp fun lt => decide_eq_true (Nat.le_of_lt lt)
  rw [inOrder, List.mergeSort_of_pairwise sorted]
  exact List.map_snd_zip (by simp)

theorem staffed_of_empty {f : Flight} (slots : f.slots = []) (claims : f.claims = []) (key : String) :
    Staffed key [] f := by
  refine ⟨Flight.lined_of_empty slots claims key, fun id stage found => ?_⟩
  rw [Flight.stage?, Flight.claim?, claims] at found
  cases found

/-- The program runs its callers as one of the ways in which a rush can go, and answers what the callers
are told there. -/
theorem exists_coalesced (calm : Calm r.key s.grants) (slots : s.flight.slots = [])
    (claims : s.flight.claims = []) (unreadable : r.readable? s.grants = none) (timely : r.Timely)
    (fits : ∀ c ∈ cs, ∀ v, c.outcome = .ok v → r.shape.fits v = true) :
    ∃ y, ReflTransGen (Rush.Step r cs) { service := s } y ∧ y.Over cs.length ∧
      r.coalesced cs s = (some (share none cs), y.service) ∧
      ∀ i e, (share none cs)[i]? = some e → y.post i = .ended e := by
  have numbers : ((List.range cs.length).zip cs).map (·.1) = List.range cs.length :=
    List.map_fst_zip (by simp)
  have told : answers none ((List.range cs.length).zip cs) =
      (List.range (share none cs).length).zip (share none cs) := by
    rw [answers, numbers, List.map_snd_zip (by simp), length_share]
  have own : ∀ a ∈ (List.range cs.length).zip cs, cs[a.1]? = some a.2 := by
    intro a ha
    obtain ⟨i, lt, rfl⟩ := List.mem_iff_getElem.1 ha
    rw [List.length_zip, List.length_range, Nat.min_self] at lt
    simp [lt]
  obtain ⟨y, answered, ran⟩ := exists_coalesceEach (x := { service := s }) timely fits
    (by rw [numbers]; exact List.nodup_range) own
    ⟨calm, unreadable, staffed_of_empty slots claims r.key⟩ fun _ _ => rfl
  have ended (i : Nat) (e : Ending) (h : (share none cs)[i]? = some e) : y.post i = .ended e := by
    refine answered.told (i, e) ?_
    rw [told]
    obtain ⟨lt, rfl⟩ := List.getElem?_eq_some_iff.1 h
    refine List.mem_iff_getElem.2 ⟨i, by simpa using lt, ?_⟩
    simp
  refine ⟨y, answered.steps, fun i lt => ?_, ?_, ended⟩
  · exact ⟨_, ended i _ (List.getElem?_eq_getElem (by rwa [length_share]))⟩
  · rw [coalesced, ran]
    simp only [Option.map_some]
    rw [told, inOrder_zip_range]

/-- Callers come at once for a key at which there is nothing to read: it may hold nothing, something that
has expired, a value of another shape or a set. Whatever their computations come to and however long
these take, and however the steps of the callers, time and what goes on elsewhere follow one another:

* no two callers compute at the same time;
* those who have begun to compute are the first of the line of those who have asked for the key, in its
  order;
* when all have ended, this has gone as `Rush.Outcome` says: the callers before the first that succeeds
  have got their own errors, all others have got its value, the callers behind it have not computed, and
  the flight is empty;
* and until then they can always get on to their end.

The program, too, runs callers in one of these ways, and its answers are what they are told there. -/
theorem coalesced_computes_once (calm : Calm r.key s.grants) (slots : s.flight.slots = [])
    (claims : s.flight.claims = []) (unreadable : r.readable? s.grants = none) (timely : r.Timely)
    (fits : ∀ c ∈ cs, ∀ v, c.outcome = .ok v → r.shape.fits v = true) :
    (∀ x, ReflTransGen (Rush.Step r cs) { service := s } x →
      (∀ i j, (x.post i).isComputing = true → (x.post j).isComputing = true → i = j) ∧
      x.begun <+: x.line ∧ (x.Over cs.length → Outcome r cs s x) ∧
      ∃ y, ReflTransGen (Rush.Step r cs) x y ∧ y.Over cs.length) ∧
    ∃ y, ReflTransGen (Rush.Step r cs) { service := s } y ∧ y.Over cs.length ∧
      r.coalesced cs s = (some (share none cs), y.service) ∧
      ∀ i e, (share none cs)[i]? = some e → y.post i = .ended e := by
  refine ⟨fun x steps => ?_, exists_coalesced calm slots claims unreadable timely fits⟩
  have start : Rush.Kept r cs s { service := s } [] [] :=
    Rush.kept_start slots claims calm.bounded unreadable
  obtain ⟨_, _, kept⟩ := start.steps timely fits steps
  exact ⟨fun i j hi hj => kept.one_computing hi hj, kept.begun_prefix, kept.outcome,
    kept.finishes timely fits⟩

/-- Of three callers for a key that holds a set, in a store with no room for another key, the first
fails after some time and the second succeeds. The last one gets what the second has computed. -/
theorem coalesced_computes_once_after_failure :
    ∃ (r : ReadThrough) (cs : List Computation) (s t : Service),
      r = { key := "k", shape := .signed, ttl := some 60 } ∧
      cs = [⟨5, .error "down"⟩, ⟨0, .ok (.int 7)⟩, ⟨3, .ok (.int 8)⟩] ∧
      s = { grants := .start ⟨0, {}, .bounded ⟨1, [("k", ⟨.set ["a"], none⟩)]⟩⟩ 3600 100 } ∧
      Calm r.key s.grants ∧ s.flight.slots = [] ∧ s.flight.claims = [] ∧
      r.readable? s.grants = none ∧ r.Timely ∧
      (∀ c ∈ cs, ∀ v, c.outcome = .ok v → r.shape.fits v = true) ∧
      r.coalesced cs s =
        (some [⟨true, .error "down"⟩, ⟨true, .ok (.int 7)⟩, ⟨false, .ok (.int 7)⟩], t) ∧
      t.flight.inFlight = 0 := by
  let r : ReadThrough := { key := "k", shape := .signed, ttl := some 60 }
  let cs : List Computation := [⟨5, .error "down"⟩, ⟨0, .ok (.int 7)⟩, ⟨3, .ok (.int 8)⟩]
  let s : Service :=
    { grants := .start ⟨0, {}, .bounded ⟨1, [("k", ⟨.set ["a"], none⟩)]⟩⟩ 3600 100 }
  have calm : Calm r.key s.grants := ⟨⟨_, rfl, List.nodup_singleton _⟩, nofun⟩
  have unreadable : r.readable? s.grants = none := by rfl
  have timely : r.Timely := by
    intro seconds ttl
    obtain rfl := Option.some.inj ttl
    decide
  have fits : ∀ c ∈ cs, ∀ v, c.outcome = .ok v → r.shape.fits v = true := by
    simp [cs, r]
    decide
  obtain ⟨every, y, steps, allEnded, ran, -⟩ :=
    coalesced_computes_once calm rfl rfl unreadable timely fits
  exact ⟨r, cs, s, y.service, rfl, rfl, rfl, calm, rfl, rfl, unreadable, timely, fits, ran,
    ((every y steps).2.2.1 allEnded).idle⟩

end GrantCache.ReadThrough
