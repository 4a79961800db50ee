import GrantCache.Proofs.ReadThrough.Rush

/-!
# What the callers of a rush are told

Until a computation succeeds there is nothing to read, and those who have computed are those who are
gone from the line, and the one at the front (`Pending`). From then on the value is there to be read and
nobody computes any more (`Settled`). At either time, who has computed is told how that went and all
others are told the value (`Told`).

`Kept` puts this together with what holds of the line and of the claims, and every step keeps it
(`Kept.step`).
-/

namespace GrantCache.Rush

open Grants (Bounded Fades)
open ReadThrough (Ending claimant)

variable {r : ReadThrough} {cs : List Computation} {x y : Rush} {i j : Nat} {p : Post}
  {s : Service} {gone here : List Nat}

/-! ## What callers are told -/

/-- The computation of a caller fails. -/
def Fails (cs : List Computation) (i : Nat) : Prop :=
  ∃ c message, cs[i]? = some c ∧ c.outcome = .error message

/-- Nobody has succeeded: there is nothing to read, and those who have computed are those who are gone
from the line, and the one at the front. -/
structure Pending (r : ReadThrough) (cs : List Computation) (start : Service) (x : Rush)
    (gone here : List Nat) : Prop where
  unreadable : r.readable? x.service.grants = none
  fades : Fades r.key start.grants x.service.grants
  begun : x.begun = gone ++ here.filter fun i => (x.post i).isBusy
  failed : ∀ i ∈ x.begun, (x.post i).isComputing = false → Fails cs i

/-- The last one to compute has succeeded. -/
structure Settled (r : ReadThrough) (cs : List Computation) (x : Rush) (v : Json) : Prop where
  readable : r.readable? x.service.grants = some v
  idle : ∀ i, (x.post i).isComputing = false
  first : x.begun <+: x.line
  won : ∃ failed i c, x.begun = failed ++ [i] ∧ (∀ j ∈ failed, Fails cs j) ∧ cs[i]? = some c ∧
    c.outcome = .ok v

/-- Who has begun to compute is told how that went, and all others the value that can be read. -/
structure Told (r : ReadThrough) (cs : List Computation) (start : Service) (x : Rush)
    (gone here : List Nat) : Prop where
  bounded : x.service.grants.Bounded
  ran : ∀ i ∈ x.begun, (x.post i).isComputing = true ∨ (x.post i).ending?.isSome = true
  endings : ∀ i e, (x.post i).ending? = some e →
    (i ∈ x.begun ∧ ∃ c, cs[i]? = some c ∧ e = ⟨true, c.outcome⟩) ∨
      i ∉ x.begun ∧ ∃ v, r.readable? x.service.grants = some v ∧ e = ⟨false, .ok v⟩
  phase : Pending r cs start x gone here ∨ ∃ v, Settled r cs x v

variable {start : Service} {v : Json}

/-- Of those who are here only the first is busy, if any. -/
theorem filter_busy_front (behind : ∀ j ∈ here, (x.post j).isBusy = false) :
    (i :: here).filter (fun j => (x.post j).isBusy) = if (x.post i).isBusy then [i] else [] := by
  have none : here.filter (fun j => (x.post j).isBusy) = [] :=
    List.filter_eq_nil_iff.2 fun j hj => by simp [behind j hj]
  rw [List.filter_cons, none]

theorem filter_busy_front_put (behind : ∀ j ∈ here, j ≠ i ∧ (x.post j).isBusy = false) :
    (i :: here).filter (fun j => ((x.put i p s).post j).isBusy) = if p.isBusy then [i] else [] := by
  rw [filter_busy_front fun j hj => ?_, post_put, if_pos rfl]
  rw [post_put, if_neg (behind j hj).1, (behind j hj).2]

theorem Told.not_mem_begun (h : Told r cs start x gone here) (idle : (x.post i).isComputing = false)
    (open_ : (x.post i).ending? = none) : i ∉ x.begun := by
  intro ran
  rcases h.ran i ran with computing | ended
  · cases idle.symm.trans computing
  · rw [open_] at ended
    cases ended

/-- Nothing changes as long as a caller neither computes nor is told anything. -/
theorem Told.keep (h : Told r cs start x gone here) {gone' here' line : List Nat}
    (bounded : s.grants.Bounded) (live : s.grants.live? r.key = x.service.grants.live? r.key)
    (before : (x.post i).isComputing = false) (after : p.isComputing = false)
    (ending : p.ending? = (x.post i).ending?) (longer : x.line <+: line)
    (row : gone' ++ here'.filter (fun j => ((x.put i p s).post j).isBusy) =
      gone ++ here.filter fun j => (x.post j).isBusy) :
    Told r cs start { x.put i p s with line } gone' here' := by
  have readable : r.readable? s.grants = r.readable? x.service.grants :=
    ReadThrough.readable?_congr live
  have computing (j : Nat) : ((x.put i p s).post j).isComputing = (x.post j).isComputing := by
    rw [post_put]
    split
    · rename_i own
      rw [own, before, after]
    · rfl
  have endings (j : Nat) : ((x.put i p s).post j).ending? = (x.post j).ending? := by
    rw [post_put]
    split
    · rename_i own
      rw [own, ending]
    · rfl
  refine ⟨bounded, fun j ran => ?_, fun j e told => ?_, ?_⟩
  · show ((x.put i p s).post j).isComputing = true ∨ ((x.put i p s).post j).ending?.isSome = true
    rw [computing, endings]
    exact h.ran j ran
  · show _ ∨ _ ∧ ∃ v, r.readable? s.grants = some v ∧ e = ⟨false, .ok v⟩
    rw [readable]
    exact h.endings j e ((endings j).symm.trans told)
  · rcases h.phase with pending | ⟨v, settled⟩
    · refine .inl ⟨readable.trans pending.unreadable, ?_, pending.begun.trans row.symm,
        fun j ran idle => pending.failed j ran ((computing j).symm.trans idle)⟩
      exact pending.fades.trans (.inl live)
    · exact .inr ⟨v, readable.trans settled.readable, fun j => (computing j).trans (settled.idle j),
        settled.first.trans longer, settled.won⟩

/-- A caller finds the value. -/
theorem Told.read (h : Told r cs start x gone here) (bounded : s.grants.Bounded)
    (live : s.grants.live? r.key = x.service.grants.live? r.key)
    (idle : (x.post i).isComputing = false) (open_ : (x.post i).ending? = none)
    (found : r.readable? x.service.grants = some v) (after : p.isComputing = false)
    (told : p.ending? = some ⟨false, .ok v⟩) : Told r cs start (x.put i p s) gone here := by
  have readable : r.readable? s.grants = r.readable? x.service.grants :=
    ReadThrough.readable?_congr live
  have new := h.not_mem_begun idle open_
  refine ⟨bounded, fun j ran => ?_, fun j e ending => ?_, .inr ?_⟩
  · have other : j ≠ i := fun own => new (own ▸ ran)
    simpa [other] using h.ran j ran
  · rw [post_put] at ending
    split at ending
    · rename_i own
      rw [own]
      exact .inr ⟨new, v, readable.trans found, Option.some.inj (ending.symm.trans told)⟩
    · rw [service_put, readable]
      exact h.endings j e ending
  · rcases h.phase with pending | ⟨v', settled⟩
    · cases pending.unreadable.symm.trans found
    · refine ⟨v', readable.trans settled.readable, fun j => ?_, settled.first, settled.won⟩
      rw [post_put]
      split
      · exact after
      · exact settled.idle j

/-- The first in line finds nothing and begins to compute. -/
theorem Told.compute {wake : Nat} (h : Told r cs start x gone (i :: here))
    (behind : ∀ j ∈ here, j ≠ i ∧ (x.post j).isBusy = false) (bounded : s.grants.Bounded)
    (live : s.grants.live? r.key = x.service.grants.live? r.key) (holding : x.post i = .holding)
    (miss : r.readable? x.service.grants = none) :
    Told r cs start { x.put i (.computing wake) s with begun := x.begun ++ [i] } gone (i :: here) := by
  have readable : r.readable? s.grants = r.readable? x.service.grants :=
    ReadThrough.readable?_congr live
  obtain pending : Pending r cs start x gone (i :: here) := by
    refine h.phase.resolve_right ?_
    rintro ⟨v, settled⟩
    cases miss.symm.trans settled.readable
  -- Whoever stands behind the first has not begun, and the first is about to.
  have begun : x.begun = gone := by
    rw [pending.begun, filter_busy_front fun j hj => (behind j hj).2, holding]
    exact List.append_nil gone
  refine ⟨bounded, fun j ran => ?_, fun j e ending => ?_, .inl ⟨?_, ?_, ?_, fun j ran idle => ?_⟩⟩
  · by_cases own : j = i
    · left
      simp [own, Post.isComputing]
    · have before : j ∈ x.begun := by simpa [own] using ran
      simpa [own] using h.ran j before
  · have other : j ≠ i := by
      rintro rfl
      simp [Post.ending?] at ending
    have before := h.endings j e (by simpa [other] using ending)
    simpa [other, readable] using before
  · exact readable.trans miss
  · exact pending.fades.trans (.inl live)
  · show x.begun ++ [i] = gone ++ (i :: here).filter fun j =>
      ((x.put i (.computing wake) s).post j).isBusy
    rw [begun, filter_busy_front_put behind]
    rfl
  · have other : j ≠ i := by
      rintro rfl
      simp [Post.isComputing] at idle
    exact pending.failed j (by simpa [other] using ran) (by simpa [other] using idle)

/-- The computation of the first in line ends. -/
theorem Told.conclude {wake : Nat} {c : Computation} {e : Ending}
    (h : Told r cs start x gone (i :: here)) (row : ∀ j ∈ gone, (x.post j).ending?.isSome = true)
    (line : x.line = gone ++ i :: here)
    (behind : ∀ j ∈ here, j ≠ i ∧ (x.post j).isBusy = false)
    (alone : ∀ j, j ≠ i → (x.post j).isComputing = false) (computing : x.post i = .computing wake)
    (timely : r.Timely) (own : cs[i]? = some c) (fits : ∀ v, c.outcome = .ok v →
      r.shape.fits v = true) (ends : r.conclude c.outcome x.service = (some e, s)) :
    Told r cs start (x.put i (.done e) s) gone (i :: here) := by
  obtain pending : Pending r cs start x gone (i :: here) := by
    refine h.phase.resolve_right ?_
    rintro ⟨v, settled⟩
    have idle := settled.idle i
    rw [computing] at idle
    cases idle
  have begun : x.begun = gone ++ [i] := by
    rw [pending.begun, filter_busy_front fun j hj => (behind j hj).2, computing]
    rfl
  have ran : ∀ j ∈ x.begun, ((x.put i (.done e) s).post j).isComputing = true ∨
      ((x.put i (.done e) s).post j).ending?.isSome = true := by
    intro j hj
    by_cases self : j = i
    · right
      simp [self, Post.ending?]
    · simpa [self] using h.ran j hj
  -- Nothing could be read so far, so all who were told anything had computed.
  have others (j : Nat) (e' : Ending) (other : j ≠ i) (ending : (x.post j).ending? = some e') :
      j ∈ x.begun ∧ ∃ c, cs[j]? = some c ∧ e' = ⟨true, c.outcome⟩ := by
    refine (h.endings j e' ending).resolve_right ?_
    rintro ⟨_, v, readable, _⟩
    cases pending.unreadable.symm.trans readable
  have endings (told : e = ⟨true, c.outcome⟩) (j : Nat) (e' : Ending)
      (ending : ((x.put i (.done e) s).post j).ending? = some e') :
      j ∈ x.begun ∧ ∃ c, cs[j]? = some c ∧ e' = ⟨true, c.outcome⟩ := by
    rw [post_put] at ending
    split at ending
    · rename_i self
      obtain rfl := Option.some.inj ending
      rw [self, begun]
      exact ⟨by simp, c, own, told⟩
    · rename_i other
      exact others j e' other ending
  have idle (j : Nat) : ((x.put i (.done e) s).post j).isComputing = false := by
    by_cases self : j = i
    · simp [self, Post.isComputing]
    · simpa [self] using alone j self
  cases outcome : c.outcome with
  -- The phase goes on: nothing can be read, and this caller failed as those before it did.
  | error message =>
    rw [outcome, ReadThrough.conclude_error] at ends
    obtain ⟨told, rfl⟩ := Prod.mk.inj ends
    obtain rfl := Option.some.inj told
    refine ⟨h.bounded, ran, fun j e' ending => .inl (endings (by rw [outcome]) j e' ending),
      .inl ⟨pending.unreadable, pending.fades, ?_, fun j hj _ => ?_⟩⟩
    · rw [begun_put, filter_busy_front_put behind, begun]
      rfl
    · by_cases self : j = i
      · rw [self]
        exact ⟨c, message, own, outcome⟩
      · exact pending.failed j hj (alone j self)
  -- The value can be read from now on, and nobody computes any more.
  | ok v =>
    rw [outcome, ReadThrough.conclude_ok h.bounded timely] at ends
    obtain ⟨told, rfl⟩ := Prod.mk.inj ends
    obtain rfl := Option.some.inj told
    refine ⟨h.bounded.ask _, ran, fun j e' ending => .inl (endings (by rw [outcome]) j e' ending),
      .inr ⟨v, ReadThrough.readable?_set h.bounded timely (fits v outcome), idle, ?_, gone, i, c,
        begun, fun j hj => ?_, own, outcome⟩⟩
    · rw [begun_put, line_put, begun, line]
      exact ⟨here, by simp⟩
    · have ended := row j hj
      refine pending.failed j (begun ▸ List.mem_append_left _ hj) ?_
      revert ended
      cases x.post j <;> simp [Post.ending?, Post.isComputing]

/-- Something else goes on. -/
theorem Told.elsewhere (h : Told r cs start x gone here) (bounded : s.grants.Bounded)
    (fades : Fades r.key x.service.grants s.grants)
    (stays : (∀ i, (x.post i).isComputing = false) → ∀ v,
      r.readable? x.service.grants = some v → r.readable? s.grants = some v) :
    Told r cs start { x with service := s } gone here := by
  rcases h.phase with pending | ⟨v, settled⟩
  · refine ⟨bounded, h.ran, fun j e told => .inl ?_, .inl
      ⟨ReadThrough.unreadable_of_fades fades pending.unreadable, pending.fades.trans fades,
        pending.begun, pending.failed⟩⟩
    refine (h.endings j e told).resolve_right ?_
    rintro ⟨_, v, readable, _⟩
    cases pending.unreadable.symm.trans readable
  · have kept := stays settled.idle v settled.readable
    refine ⟨bounded, h.ran, fun j e told => ?_, .inr
      ⟨v, kept, settled.idle, settled.first, settled.won⟩⟩
    refine (h.endings j e told).imp_right ?_
    rintro ⟨new, v', readable, rfl⟩
    exact ⟨new, v', stays settled.idle v' readable, rfl⟩

/-! ## Every step keeps it all -/

structure Kept (r : ReadThrough) (cs : List Computation) (start : Service) (x : Rush)
    (gone here : List Nat) : Prop where
  seats : Seats r x here
  row : Row cs.length x gone here
  told : Told r cs start x gone here

theorem Kept.front (h : Kept r cs start x gone here) (owns : (x.post i).owns = true) :
    ∃ rest, here = i :: rest ∧ ∀ j ∈ rest, j ≠ i ∧ (x.post j).isBusy = false := by
  have first := h.seats.head?_of_owns owns
  cases here with
  | nil => cases first
  | cons i' rest =>
    obtain rfl := Option.some.inj first
    have nodup := h.row.nodup_here
    refine ⟨rest, rfl, fun j hj => ⟨?_, h.seats.not_busy_behind nodup j hj⟩⟩
    rintro rfl
    exact (List.nodup_cons.1 nodup).1 hj

/-- Only one caller computes. -/
theorem Kept.alone (h : Kept r cs start x gone here) (owns : (x.post i).owns = true)
    (owns' : (x.post j).owns = true) : i = j :=
  Option.some.inj ((h.seats.head?_of_owns owns).symm.trans (h.seats.head?_of_owns owns'))

/-- Who is not in line does not count as busy, whatever becomes of it. -/
theorem filter_busy_put (same : i ∈ here → p.isBusy = (x.post i).isBusy) :
    here.filter (fun j => ((x.put i p s).post j).isBusy) = here.filter fun j => (x.post j).isBusy := by
  refine List.filter_congr fun j hj => ?_
  rw [post_put]
  split
  · rename_i own
    rw [own, same (own ▸ hj)]
  · rfl

/-- A caller that stays in or out of the line moves on, neither computing nor being told anything. -/
theorem Kept.move (h : Kept r cs start x gone here) (caller : i < cs.length)
    (bounded : s.grants.Bounded) (live : s.grants.live? r.key = x.service.grants.live? r.key)
    (seats : Seats r (x.put i p s) here) (line : p.isInLine = (x.post i).isInLine)
    (ending : p.ending? = (x.post i).ending?) (busy : p.isBusy = (x.post i).isBusy)
    (before : (x.post i).isComputing = false) (after : p.isComputing = false) :
    Kept r cs start (x.put i p s) gone here :=
  ⟨seats, h.row.put caller line fun some => ending ▸ some,
    h.told.keep bounded live before after ending (List.prefix_refl _)
      (by rw [filter_busy_put fun _ => busy])⟩

theorem Kept.step (timely : r.Timely)
    (fits : ∀ c ∈ cs, ∀ v, c.outcome = .ok v → r.shape.fits v = true)
    (h : Kept r cs start x gone here) (step : Step r cs x y) :
    ∃ gone' here', Kept r cs start y gone' here' := by
  cases step with
  | @hit i v s fresh caller read =>
    obtain ⟨found, flight, bounded, live, _⟩ := ReadThrough.hit?_facts h.told.bounded read
    have none : x.stage? i = none := h.seats.seat fresh
    exact ⟨gone, here, h.seats.stay flight none, h.row.put caller (by rw [fresh]; rfl) fun _ => rfl,
      h.told.read bounded live (by rw [fresh]; rfl) (by rw [fresh]; rfl) found.symm rfl rfl⟩
  | @miss i s fresh caller read =>
    obtain ⟨_, flight, bounded, live, _⟩ := ReadThrough.hit?_facts h.told.bounded read
    have none : x.stage? i = none := h.seats.seat fresh
    refine ⟨gone, here, h.move caller bounded live (h.seats.stay flight none) ?_ ?_ ?_ ?_ rfl⟩ <;>
      rw [fresh] <;> rfl
  | @arrive i missed =>
    have caller := h.row.callers i (by simp [missed])
    refine ⟨gone, here,
      h.move caller h.told.bounded rfl (h.seats.arrive missed) ?_ ?_ ?_ ?_ rfl⟩ <;>
      rw [missed] <;> rfl
  -- The line grows at its end.
  | @join i arrived =>
    obtain ⟨lined, seats, named⟩ := h.seats.join arrived
    refine ⟨gone, here ++ [i], ⟨lined, seats, named⟩, h.row.join arrived, ?_⟩
    refine h.told.keep h.told.bounded rfl (by rw [arrived]; rfl) rfl (by rw [arrived]; rfl)
      (List.prefix_append _ _) ?_
    rw [List.filter_append, filter_busy_put (by rw [arrived]; exact fun _ => rfl)]
    simp [Post.isBusy]
  | @notice i waiting turn =>
    have caller := h.row.callers i (by simp [waiting])
    refine ⟨gone, here, h.move caller h.told.bounded rfl (h.seats.notice turn) ?_ ?_ ?_ ?_ rfl⟩ <;>
      rw [waiting] <;> rfl
  | @reread i v s holding read =>
    obtain ⟨found, flight, bounded, live, _⟩ := ReadThrough.hit?_facts h.told.bounded read
    have owning : x.stage? i = some .owning := h.seats.seat holding
    have caller := h.row.callers i (by simp [holding])
    exact ⟨gone, here, h.seats.stay flight owning, h.row.put caller (by rw [holding]; rfl) fun _ => rfl,
      h.told.read bounded live (by rw [holding]; rfl) (by rw [holding]; rfl) found.symm rfl rfl⟩
  -- Only the first in line computes, after it has read in vain.
  | @compute i c s holding own read =>
    obtain ⟨miss, flight, bounded, live, _⟩ := ReadThrough.hit?_facts h.told.bounded read
    have owning : x.stage? i = some .owning := h.seats.seat holding
    have caller := h.row.callers i (by simp [holding])
    obtain ⟨rest, rfl, behind⟩ := h.front (i := i) (by rw [holding]; rfl)
    have seats : Seats r (x.put i (.computing (s.now + c.delay)) s) (i :: rest) :=
      h.seats.stay flight owning
    have row : Row cs.length (x.put i (.computing (s.now + c.delay)) s) gone (i :: rest) :=
      h.row.put caller (by rw [holding]; rfl) (by simp [holding, Post.ending?])
    exact ⟨gone, i :: rest, ⟨seats.lined, seats.seats, seats.named⟩,
      ⟨row.line, row.nodup, row.inLine, row.left, row.callers⟩,
      h.told.compute behind bounded live holding miss.symm⟩
  | @conclude i c e s wake computing own due ends =>
    have owning : x.stage? i = some .owning := h.seats.seat computing
    have caller := h.row.callers i (by simp [computing])
    obtain ⟨rest, rfl, behind⟩ := h.front (i := i) (by rw [computing]; rfl)
    have alone (j : Nat) (other : j ≠ i) : (x.post j).isComputing = false := by
      refine eq_false_of_ne_true fun computes => other ?_
      exact h.alone (Post.owns_of_isComputing computes) (by rw [computing]; rfl)
    have flight : s.flight = x.service.flight := by
      simpa only [ends] using ReadThrough.flight_conclude c.outcome x.service r
    exact ⟨gone, i :: rest, h.seats.stay flight owning,
      h.row.put caller (by rw [computing]; rfl) (by simp [computing, Post.ending?]),
      h.told.conclude h.row.left h.row.line behind alone computing timely own
        (fits c (List.mem_of_getElem? own)) ends⟩
  -- The first in line has its answer and joins those that are gone.
  | @unlock i e done =>
    obtain ⟨rest, rfl, behind⟩ := h.front (i := i) (by rw [done]; rfl)
    refine ⟨gone ++ [i], rest, h.seats.unlock done, h.row.unlock done, ?_⟩
    refine h.told.keep h.told.bounded rfl (by rw [done]; rfl) rfl (by rw [done]; rfl)
      (List.prefix_refl _) ?_
    rw [filter_busy_put fun own => ((behind i own).1 rfl).elim,
      List.filter_cons_of_pos (by rw [done]; rfl)]
    simp
  | @forget i e leaving =>
    have caller := h.row.callers i (by simp [leaving])
    refine ⟨gone, here,
      h.move caller h.told.bounded rfl (h.seats.forget leaving) ?_ ?_ ?_ ?_ rfl⟩ <;>
      rw [leaving] <;> rfl
  | @elsewhere s flight bounded fades stays =>
    refine ⟨gone, here, ⟨flight ▸ h.seats.lined, fun i => ?_, fun id nobody => ?_⟩,
      ⟨h.row.line, h.row.nodup, h.row.inLine, h.row.left, h.row.callers⟩,
      h.told.elsewhere bounded fades stays⟩
    · rw [Rush.stage?, flight]
      exact h.seats.seats i
    · rw [flight]
      exact h.seats.named id nobody

end GrantCache.Rush
