import GrantCache.Proofs.ReadThrough.Outcome

/-!
# Callers that run one after another

`ReadThrough.coalesced` runs its callers in one particular order. Each part of it is a number of steps
of a rush (`exists_takeTurns`, `exists_queueEach`, `exists_coalesceEach`), so that what it answers is
what the callers of that rush are told; and since the order is known, the answers can be written down
(`share`). `Ready` is what holds of the service in between.
-/

namespace GrantCache

namespace ReadThrough

/-- What a caller is told in its turn: the value that is known, or how its own computation went. -/
def reply (known : Option Json) (c : Computation) : Ending :=
  match known with
  | some v => ⟨false, .ok v⟩
  | none => ⟨true, c.outcome⟩

/-- The value that is known after the turn of a caller. -/
def learn (known : Option Json) (c : Computation) : Option Json :=
  match known with
  | some v => some v
  | none => c.outcome.toOption

/-- What callers are told who take their turns one after another. -/
def share : Option Json → List Computation → List Ending
  | _, [] => []
  | known, c :: cs => reply known c :: share (learn known c) cs

@[simp] theorem length_share (known : Option Json) (cs : List Computation) :
    (share known cs).length = cs.length := by
  induction cs generalizing known with
  | nil => rfl
  | cons c cs ih => simp [share, ih]

/-- How the callers in line end, each with its number. -/
def answers (known : Option Json) (callers : List (Nat × Computation)) : List (Nat × Ending) :=
  (callers.map (·.1)).zip (share known (callers.map (·.2)))

end ReadThrough

namespace Rush

open ReadThrough (Ending claimant answers reply learn endTurn)
open Relation (ReflTransGen)
open Flight (Staffed)

variable {r : ReadThrough} {cs : List Computation} {x y z : Rush} {i j : Nat} {p q : Post}
  {s : Service} {c : Computation} {names : List Nat} {callers : List (Nat × Computation)}
  {known : Option Json}

/-! ## One caller -/

/-- Steps by which one caller gets to a post, while all others stay where they are. -/
structure Reaches (r : ReadThrough) (cs : List Computation) (i : Nat) (p : Post) (x y : Rush) :
    Prop where
  steps : ReflTransGen (Step r cs) x y
  post : y.post i = p
  others : ∀ j, j ≠ i → y.post j = x.post j

theorem Reaches.trans (h : Reaches r cs i p x y) (h' : Reaches r cs i q y z) :
    Reaches r cs i q x z :=
  ⟨h.steps.trans h'.steps, h'.post, fun j other => (h'.others j other).trans (h.others j other)⟩

theorem reaches_of_step (step : Step r cs x y)
    (post : ∀ j, y.post j = if j = i then p else x.post j) : Reaches r cs i p x y :=
  ⟨.single step, (post i).trans (if_pos rfl), fun j other => (post j).trans (if_neg other)⟩

/-- Between the steps that matter: the key is calm, what can be read there is known, and the callers in
line wait, but for the first one, who works. -/
structure Ready (r : ReadThrough) (names : List Nat) (known : Option Json) (s : Service) : Prop where
  calm : Calm r.key s.grants
  known_eq : r.readable? s.grants = known
  staffed : Staffed r.key (names.map claimant) s.flight

/-- A read leaves everything as it is. -/
theorem Ready.read (h : Ready r names known s) :
    ∃ t, r.hit? s = (known, t) ∧ t.flight = s.flight ∧ Ready r names known t := by
  obtain ⟨events, hit⟩ := ReadThrough.hit?_eq h.calm.bounded r
  obtain ⟨_, flight, _, live, _⟩ := ReadThrough.hit?_facts h.calm.bounded hit
  exact ⟨_, h.known_eq ▸ hit, flight, (h.calm.ask _).note events,
    (ReadThrough.readable?_congr live).trans h.known_eq, flight ▸ h.staffed⟩

/-- A caller that has the lock reads again and finds nothing. -/
theorem exists_compute (h : Ready r names none x.service) (holding : x.post i = .holding)
    (own : cs[i]? = some c) :
    ∃ y, Reaches r cs i (.computing (y.service.now + c.delay)) x y ∧
      r.hit? x.service = (none, y.service) ∧ Ready r names none y.service := by
  obtain ⟨t, hit, _, ready⟩ := h.read
  have step : Step r cs x _ := .compute holding own hit
  exact ⟨_, reaches_of_step step fun _ => rfl, hit, ready⟩

/-- A caller that computes sleeps. -/
theorem exists_sleep {wake : Nat} (h : Ready r names none x.service)
    (computing : x.post i = .computing wake) :
    ∃ y, Reaches r cs i (.computing wake) x y ∧ y.service = x.service.sleepUntil wake ∧
      Ready r names none y.service ∧ wake ≤ y.service.now := by
  obtain ⟨calm, fades, _⟩ := Service.drifts_sleepUntil r.key wake x.service h.calm
  have flight := Service.flight_sleepUntil wake x.service
  have step : Step r cs x { x with service := x.service.sleepUntil wake } :=
    .elsewhere flight calm.bounded fades fun idle => by
      have none := idle i
      rw [computing] at none
      cases none
  have miss := ReadThrough.unreadable_of_fades fades h.known_eq
  exact ⟨_, ⟨.single step, computing, fun _ _ => rfl⟩, rfl, ⟨calm, miss, flight ▸ h.staffed⟩,
    Service.le_now_sleepUntil wake x.service h.calm⟩

/-- A caller that has computed stores its value, if there is one. -/
theorem exists_conclude {wake : Nat} (timely : r.Timely) (h : Ready r names none x.service)
    (computing : x.post i = .computing wake) (due : wake ≤ x.service.now) (own : cs[i]? = some c)
    (fits : ∀ v, c.outcome = .ok v → r.shape.fits v = true) :
    ∃ y, Reaches r cs i (.done (reply none c)) x y ∧
      r.conclude c.outcome x.service = (some (reply none c), y.service) ∧
      Ready r names (learn none c) y.service := by
  rw [reply, learn]
  cases outcome : c.outcome with
  | error message =>
    have ends := ReadThrough.conclude_error message x.service r
    have step : Step r cs x _ := .conclude computing own due (by rw [outcome]; exact ends)
    exact ⟨_, reaches_of_step step fun _ => rfl, ends, h⟩
  | ok v =>
    have ends := ReadThrough.conclude_ok h.calm.bounded timely v
    have step : Step r cs x _ := .conclude computing own due (by rw [outcome]; exact ends)
    exact ⟨_, reaches_of_step step fun _ => rfl, ends, h.calm.ask _,
      ReadThrough.readable?_set h.calm.bounded timely (fits v outcome), h.staffed⟩

/-- A caller that has the lock takes its turn. -/
theorem exists_takeTurn (timely : r.Timely) (h : Ready r names known x.service)
    (holding : x.post i = .holding) (own : cs[i]? = some c)
    (fits : ∀ v, c.outcome = .ok v → r.shape.fits v = true) :
    ∃ y, Reaches r cs i (.done (reply known c)) x y ∧
      r.takeTurn c x.service = (some (reply known c), y.service) ∧
      Ready r names (learn known c) y.service := by
  cases known with
  -- An earlier caller has computed the value, and this one finds it when it reads again.
  | some v =>
    obtain ⟨t, hit, _, ready⟩ := h.read
    have step : Step r cs x _ := .reread holding hit
    refine ⟨_, reaches_of_step step fun _ => rfl, ?_, ready⟩
    rw [ReadThrough.takeTurn, ReadThrough.start, hit]
    rfl
  | none =>
    obtain ⟨a, computes, hit, ready⟩ := exists_compute h holding own
    by_cases instant : c.delay = 0
    · obtain ⟨b, concludes, ends, learnt⟩ :=
        exists_conclude timely ready computes.post (by omega) own fits
      refine ⟨b, computes.trans concludes, ?_, learnt⟩
      rw [ReadThrough.takeTurn, ReadThrough.start, hit]
      simp only [instant, if_true, ends]
      rfl
    · obtain ⟨b, sleeps, slept, ready, due⟩ := exists_sleep ready computes.post
      obtain ⟨d, concludes, ends, learnt⟩ := exists_conclude timely ready sleeps.post due own fits
      refine ⟨d, (computes.trans sleeps).trans concludes, ?_, learnt⟩
      rw [ReadThrough.takeTurn, ReadThrough.start, hit]
      simp only [instant, if_false, ReadThrough.finish, ← slept, ends]

/-- A caller that has read in vain gets in line. -/
theorem exists_queue (h : Ready r names none x.service) (fresh : x.post i = .fresh)
    (caller : i < cs.length) (new : i ∉ names) :
    ∃ y t, Reaches r cs i .waiting x y ∧ r.hit? x.service = (none, t) ∧
      y.service = { t with flight := t.flight.acquire (claimant i) r.key } ∧
      Ready r (names ++ [i]) none y.service := by
  obtain ⟨t, hit, _, ready⟩ := h.read
  have unnamed : claimant i ∉ names.map claimant := by
    rintro mem
    obtain ⟨j, hj, same⟩ := List.mem_map.1 mem
    exact new (claimant_injective same ▸ hj)
  obtain ⟨acquired, staffed⟩ := ready.staffed.acquire unnamed
  have missed : Step r cs x _ := .miss fresh caller hit
  have first : Reaches r cs i .missed x _ := reaches_of_step missed fun _ => rfl
  have arrived : Step r cs _ _ := .arrive first.post
  have second : Reaches r cs i .arrived x _ := first.trans (reaches_of_step arrived fun _ => rfl)
  have joined : Step r cs _ _ := .join second.post
  have third : Reaches r cs i .waiting x _ := second.trans (reaches_of_step joined fun _ => rfl)
  refine ⟨_, t, third, hit, ?_, ready.calm, ready.known_eq, ?_⟩
  · rw [acquired]
    rfl
  · rw [acquired] at staffed
    rw [List.map_append]
    exact staffed

/-- A caller that finds nobody in line gets the lock at once. -/
theorem exists_hold (h : Ready r [] none x.service) (fresh : x.post i = .fresh)
    (caller : i < cs.length) :
    ∃ y t, Reaches r cs i .holding x y ∧ r.hit? x.service = (none, t) ∧
      y.service = { t with flight := t.flight.acquire (claimant i) r.key } ∧
      Ready r [i] none y.service := by
  obtain ⟨a, t, queue, hit, service, ready⟩ := exists_queue h fresh caller List.not_mem_nil
  have owning : a.stage? i = some .owning := ready.staffed.owning
  have noticed : Step r cs a _ := .notice queue.post (.inr owning)
  -- Who owns the lock already does not change the flight by running.
  have flown : a.fly (.run (claimant i)) = a.service := by
    rw [fly, Flight.step, Flight.run_of_owning owning]
  rw [flown] at noticed
  exact ⟨_, t, queue.trans (reaches_of_step noticed fun _ => rfl), hit, service, ready⟩

/-- A caller that has its answer goes, and the next in line notices that it is its turn. -/
theorem exists_endTurn (cs : List Computation) {e : Ending} (nodup : (i :: names).Nodup)
    (done : x.post i = .done e) (h : Ready r (i :: names) known x.service)
    (waiting : ∀ j ∈ names, x.post j = .waiting) :
    ∃ y, ReflTransGen (Step r cs) x y ∧ y.service = endTurn i x.service ∧
      Ready r names known y.service ∧ y.post i = .ended e ∧
      (∀ j ∈ names.head?, y.post j = .holding) ∧ (∀ j ∈ names.tail, y.post j = .waiting) ∧
      ∀ j, j ≠ i → j ∉ names → y.post j = x.post j := by
  obtain ⟨released, staffed⟩ := h.staffed.release
  have unlocked : Step r cs x _ := .unlock done
  have first : Reaches r cs i (.leaving e) x _ := reaches_of_step unlocked fun _ => rfl
  have forgotten : Step r cs _ _ := .forget first.post
  have second : Reaches r cs i (.ended e) x _ := first.trans (reaches_of_step forgotten fun _ => rfl)
  rw [released] at staffed
  cases names with
  | nil =>
    refine ⟨_, second.steps, ?_, ⟨h.calm, h.known_eq, staffed⟩, second.post, nofun, nofun,
      fun j other _ => second.others j other⟩
    rw [endTurn, released]
    rfl
  -- The lock was handed on at the release, so that the next in line only has to notice it.
  | cons next rest =>
    obtain ⟨behind, distinct⟩ := List.nodup_cons.1 nodup
    have apart : ∀ j ∈ next :: rest, j ≠ i := fun j hj same => behind (same ▸ hj)
    have waits (j : Nat) (hj : j ∈ next :: rest) := (second.others j (apart j hj)).trans (waiting j hj)
    have lined := (h.staffed.unlock h.staffed.owning).forget h.staffed.leaving_of_unlock
    have noticed : Step r cs _ _ := .notice (waits next List.mem_cons_self) lined.lock_of_head
    have third : Reaches r cs next .holding _ _ := reaches_of_step noticed fun _ => rfl
    refine ⟨_, second.steps.trans third.steps, ?_, ⟨h.calm, h.known_eq, staffed⟩,
      (third.others i (apart next List.mem_cons_self).symm).trans second.post, fun j hj => ?_,
      fun j hj => ?_, fun j other absent => ?_⟩
    · rw [endTurn, released]
      rfl
    · obtain rfl := Option.some.inj hj
      exact third.post
    · have other : j ≠ next := fun same => (List.nodup_cons.1 distinct).1 (same ▸ hj)
      exact (third.others j other).trans (waits j (List.mem_cons_of_mem _ hj))
    · have other' : j ≠ next := fun same => absent (same ▸ List.mem_cons_self)
      exact (third.others j other').trans (second.others j other)

/-! ## One after another -/

/-- Steps after which callers have been told what `answers` says, while all others are where they
were. -/
structure Answered (r : ReadThrough) (cs : List Computation) (known : Option Json)
    (callers : List (Nat × Computation)) (x y : Rush) : Prop where
  steps : ReflTransGen (Step r cs) x y
  told : ∀ a ∈ answers known callers, y.post a.1 = .ended a.2
  others : ∀ j ∉ callers.map (·.1), y.post j = x.post j

theorem answered_nil (known : Option Json) (x : Rush) : Answered r cs known [] x x :=
  ⟨.refl, nofun, fun _ _ => rfl⟩

theorem Answered.cons (steps : ReflTransGen (Step r cs) x y)
    (told : y.post i = .ended (reply known c))
    (others : ∀ j, j ≠ i → j ∉ callers.map (·.1) → y.post j = x.post j)
    (h : Answered r cs (learn known c) callers y z) (new : i ∉ callers.map (·.1)) :
    Answered r cs known ((i, c) :: callers) x z := by
  refine ⟨steps.trans h.steps, fun a ha => ?_, fun j absent => ?_⟩
  · rcases List.mem_cons.1 ha with rfl | later
    · exact (h.others i new).trans told
    · exact h.told a later
  · rw [List.map_cons, List.mem_cons, not_or] at absent
    exact (h.others j absent.2).trans (others j absent.1 absent.2)

theorem Answered.after {a : Nat × Computation} (first : Reaches r cs a.1 p x y)
    (h : Answered r cs known (a :: callers) y z) : Answered r cs known (a :: callers) x z := by
  refine ⟨first.steps.trans h.steps, h.told, fun j absent => (h.others j absent).trans ?_⟩
  exact first.others j fun same => absent (same ▸ List.mem_cons_self)

/-- Callers that come while one computes get in line behind it. -/
theorem exists_queueEach (cs : List Computation) (nodup : (names ++ callers.map (·.1)).Nodup)
    (own : ∀ a ∈ callers, cs[a.1]? = some a.2) (h : Ready r names none x.service)
    (fresh : ∀ j ∈ callers.map (·.1), x.post j = .fresh) :
    ∃ y, ReflTransGen (Step r cs) x y ∧
      r.queueEach callers x.service = ([], callers, y.service) ∧
      Ready r (names ++ callers.map (·.1)) none y.service ∧
      (∀ j ∈ callers.map (·.1), y.post j = .waiting) ∧
      ∀ j ∉ callers.map (·.1), y.post j = x.post j := by
  induction callers generalizing x names with
  | nil =>
    refine ⟨x, .refl, rfl, ?_, nofun, fun _ _ => rfl⟩
    rw [List.map_nil, List.append_nil]
    exact h
  | cons caller callers ih =>
    obtain ⟨i, c⟩ := caller
    -- The caller that comes first is the last in line for those behind it.
    have split : names ++ ((i, c) :: callers).map (·.1) = (names ++ [i]) ++ callers.map (·.1) := by
      simp
    rw [split] at nodup ⊢
    have before : i ∉ names := by
      have mine := (List.nodup_append.1 (List.nodup_append.1 nodup).1).2.2
      exact fun mem => mine i mem i (List.mem_singleton.2 rfl) rfl
    have after : i ∉ callers.map (·.1) := by
      have others := (List.nodup_append.1 nodup).2.2
      exact fun mem => others i (by simp) i mem rfl
    have mine : cs[i]? = some c := own (i, c) List.mem_cons_self
    obtain ⟨a, t, queue, hit, service, ready⟩ := exists_queue h (fresh i List.mem_cons_self)
      (List.getElem?_eq_some_iff.1 mine).1 before
    have apart (j : Nat) (hj : j ∈ callers.map (·.1)) : j ≠ i := fun same => after (same ▸ hj)
    obtain ⟨b, steps, queued, ready, waiting, others⟩ := ih nodup
      (fun a ha => own a (List.mem_cons_of_mem _ ha)) ready
      fun j hj => (queue.others j (apart j hj)).trans (fresh j (List.mem_cons_of_mem _ hj))
    refine ⟨b, queue.steps.trans steps, ?_, ready, fun j hj => ?_, fun j hj => ?_⟩
    · rw [ReadThrough.queueEach, hit]
      simp only [← service, queued]
    · rcases List.mem_cons.1 hj with self | later
      · rw [self]
        exact (others i after).trans queue.post
      · exact waiting j later
    · rw [List.map_cons, List.mem_cons, not_or] at hj
      exact (others j hj.2).trans (queue.others j hj.1)

variable (timely : r.Timely) (fits : ∀ c ∈ cs, ∀ v, c.outcome = .ok v → r.shape.fits v = true)

include timely fits

/-- Callers that are in line take their turns. -/
theorem exists_takeTurns (nodup : (callers.map (·.1)).Nodup)
    (own : ∀ a ∈ callers, cs[a.1]? = some a.2)
    (h : Ready r (callers.map (·.1)) known x.service)
    (first : ∀ j ∈ (callers.map (·.1)).head?, x.post j = .holding)
    (behind : ∀ j ∈ (callers.map (·.1)).tail, x.post j = .waiting) :
    ∃ y, Answered r cs known callers x y ∧
      r.takeTurns callers x.service = (some (answers known callers), y.service) := by
  induction callers generalizing x known with
  | nil => exact ⟨x, answered_nil known x, rfl⟩
  | cons caller callers ih =>
    obtain ⟨i, c⟩ := caller
    obtain ⟨new, nodup'⟩ := List.nodup_cons.1 nodup
    have mine : cs[i]? = some c := own (i, c) List.mem_cons_self
    obtain ⟨a, turn, took, ready⟩ := exists_takeTurn timely h (first i rfl) mine
      (fits c (List.mem_of_getElem? mine))
    have waiting (j : Nat) (hj : j ∈ callers.map (·.1)) : a.post j = .waiting :=
      (turn.others j fun same => new (same ▸ hj)).trans (behind j hj)
    obtain ⟨b, steps, ends, ready, told, next, later, others⟩ :=
      exists_endTurn cs nodup turn.post ready waiting
    obtain ⟨z, answered, took'⟩ :=
      ih nodup' (fun a ha => own a (List.mem_cons_of_mem _ ha)) ready next later
    refine ⟨z, answered.cons (turn.steps.trans steps) told (fun j other absent => ?_) new, ?_⟩
    · exact (others j other absent).trans (turn.others j other)
    · rw [ReadThrough.takeTurns, took]
      simp only [← ends, took']
      rfl

/-- While one caller computes the others come, and when it has its answer they take their turns. -/
theorem exists_lead {wake : Nat} (nodup : (i :: callers.map (·.1)).Nodup) (mine : cs[i]? = some c)
    (own : ∀ a ∈ callers, cs[a.1]? = some a.2) (h : Ready r [i] none x.service)
    (computing : x.post i = .computing wake)
    (fresh : ∀ j ∈ callers.map (·.1), x.post j = .fresh) :
    ∃ y, Answered r cs none ((i, c) :: callers) x y ∧ ∃ queued concluded : Service,
      r.queueEach callers x.service = ([], callers, queued) ∧
      r.finish (.computing wake c.outcome) queued = (some (reply none c), concluded) ∧
      r.takeTurns callers (endTurn i concluded) =
        (some (answers (learn none c) callers), y.service) := by
  obtain ⟨new, nodup'⟩ := List.nodup_cons.1 nodup
  obtain ⟨a, queue, queued, ready, waiting, others⟩ := exists_queueEach cs nodup own h fresh
  obtain ⟨b, sleeps, slept, ready, due⟩ := exists_sleep ready ((others i new).trans computing)
  obtain ⟨d, concludes, ends, ready⟩ := exists_conclude timely ready sleeps.post due mine
    (fits c (List.mem_of_getElem? mine))
  have turn := sleeps.trans concludes
  have waits (j : Nat) (hj : j ∈ callers.map (·.1)) : d.post j = .waiting :=
    (turn.others j fun same => new (same ▸ hj)).trans (waiting j hj)
  obtain ⟨w, steps, gone, ready, told, next, later, rest⟩ :=
    exists_endTurn cs nodup turn.post ready waits
  obtain ⟨z, answered, took⟩ := exists_takeTurns timely fits nodup' own ready next later
  refine ⟨z, answered.cons (queue.trans (turn.steps.trans steps)) told (fun j other absent => ?_) new,
    a.service, d.service, queued, ?_, gone ▸ took⟩
  · rw [rest j other absent, turn.others j other, others j absent]
  · rw [ReadThrough.finish, ← slept, ends]

/-- Callers that start one after another, where nobody is in line, until one of them has to wait for
its computation. -/
theorem exists_coalesceEach (nodup : (callers.map (·.1)).Nodup)
    (own : ∀ a ∈ callers, cs[a.1]? = some a.2) (h : Ready r [] known x.service)
    (fresh : ∀ j ∈ callers.map (·.1), x.post j = .fresh) :
    ∃ y, Answered r cs known callers x y ∧
      r.coalesceEach callers x.service = (some (answers known callers), y.service) := by
  induction callers generalizing x known with
  | nil => exact ⟨x, answered_nil known x, rfl⟩
  | cons caller callers ih =>
    obtain ⟨i, c⟩ := caller
    obtain ⟨new, nodup'⟩ := List.nodup_cons.1 nodup
    have mine : cs[i]? = some c := own (i, c) List.mem_cons_self
    have number := (List.getElem?_eq_some_iff.1 mine).1
    have own' : ∀ a ∈ callers, cs[a.1]? = some a.2 := fun a ha => own a (List.mem_cons_of_mem _ ha)
    have first := fresh i List.mem_cons_self
    have fresh' {p : Post} {y : Rush} (moved : Reaches r cs i p x y) (j : Nat)
        (hj : j ∈ callers.map (·.1)) : y.post j = .fresh :=
      (moved.others j fun same => new (same ▸ hj)).trans (fresh j (List.mem_cons_of_mem _ hj))
    cases known with
    -- The value is in the cache, so nobody gets in line.
    | some v =>
      obtain ⟨t, hit, _, ready⟩ := h.read
      have step : Step r cs x _ := .hit first number hit
      have told : Reaches r cs i (.ended (reply (some v) c)) x _ := reaches_of_step step fun _ => rfl
      obtain ⟨z, answered, went⟩ := ih nodup' own' ready (fresh' told)
      refine ⟨z, answered.cons told.steps told.post (fun j other _ => told.others j other) new, ?_⟩
      rw [ReadThrough.coalesceEach, hit]
      exact congrArg (fun result => (result.1.map ((i, ⟨false, .ok v⟩) :: ·), result.2)) went
    | none =>
      obtain ⟨a, t, hold, hit, service, ready⟩ := exists_hold h first number
      obtain ⟨b, computes, hit', ready⟩ := exists_compute ready hold.post mine
      have begun := hold.trans computes
      have start : r.start c a.service = if c.delay = 0 then
          ((r.conclude c.outcome b.service).1.map .ended, (r.conclude c.outcome b.service).2)
          else (some (.computing (b.service.now + c.delay) c.outcome), b.service) := by
        rw [ReadThrough.start, hit']
      -- A computation without delay is over before the next caller comes. Otherwise all that are
      -- left get in line behind this one.
      by_cases instant : c.delay = 0
      · obtain ⟨d, concludes, ends, ready⟩ := exists_conclude timely ready computes.post (by omega)
          mine (fits c (List.mem_of_getElem? mine))
        have turn := begun.trans concludes
        obtain ⟨e, steps, gone, ready, told, _, _, others⟩ :=
          exists_endTurn cs (List.nodup_singleton i) turn.post ready nofun
        have arrived : Reaches r cs i (.ended (reply none c)) x e :=
          ⟨turn.steps.trans steps, told,
            fun j other => (others j other List.not_mem_nil).trans (turn.others j other)⟩
        obtain ⟨z, answered, went⟩ := ih nodup' own' ready (fresh' arrived)
        refine ⟨z, answered.cons arrived.steps told (fun j other _ => arrived.others j other) new, ?_⟩
        rw [if_pos instant, ends] at start
        rw [ReadThrough.coalesceEach, hit]
        simp only [← service, start, Option.map_some, ← gone, went]
        rfl
      · obtain ⟨z, answered, _, _, queued, finish, took⟩ :=
          exists_lead timely fits nodup mine own' ready begun.post (fresh' begun)
        refine ⟨z, answered.after begun, ?_⟩
        rw [if_neg instant] at start
        rw [ReadThrough.coalesceEach, hit]
        simp only [← service, start, queued, finish, took]
        rfl

end Rush

end GrantCache
