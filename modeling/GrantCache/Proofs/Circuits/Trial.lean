import GrantCache.Proofs.Circuits.Tally

/-!
# What it takes to close a half-open circuit

A half-open circuit closes when enough calls have succeeded in a row. They are counted from the last
failure, and not from the moment when the circuit became half-open: successes that were recorded
before count as well, if no failure came after them (`successes_before_closing`). So a circuit that
was opened by a success, or at which a call succeeded late while it was open, closes with fewer trial
calls than its threshold says (`closed_by_single_trial`).
-/

namespace GrantCache

open Circuit (Happens Life)

/-! ## Since the circuit became half-open -/

/-- A circuit became half-open, and since then no call has failed and nobody has reset it. -/
structure Mark.Probing (first : Mark) (trial : List Mark) : Prop where
  first : first.halfOpens = true
  trial : ∀ m ∈ trial, m.halfOpens = false ∧ m.failed = false ∧ m.deed ≠ .reset

theorem Mark.Probing.concat {trial : List Mark} {first m : Mark} (h : Probing first trial)
    (hm : m.halfOpens = false ∧ m.failed = false ∧ m.deed ≠ .reset) :
    Probing first (trial ++ [m]) := by
  refine ⟨h.first, ?_⟩
  exact List.forall_mem_append.2 ⟨h.trial, List.forall_mem_singleton.2 hm⟩

variable {name : String} {now : Nat} {marks : List Mark} {c : Circuit}

/-- The streak of a half-open circuit is the one with which it became half-open, and what has
succeeded since. -/
theorem Circuit.Life.probing (life : Life name now marks c) (half : c.phase = .halfOpen) :
    ∃ before first trial, marks = before ++ first :: trial ∧ Mark.Probing first trial ∧
      c.streak = first.before.streak + trial.countP Mark.succeeded := by
  induction life with
  | new => cases half
  | wait _ _ ih => exact ih half
  | @mark now marks c c' d life hd ih =>
    cases hd with
    | @pass p _ _ hp =>
      obtain ⟨before, first, trial, rfl, probing, streak⟩ := ih half
      let m : Mark := ⟨name, .enter p true, now, c, c⟩
      have still : m.halfOpens = false := by simp [m, Mark.halfOpens, hp]
      refine ⟨before, first, trial ++ [m], by simp [m], probing.concat ⟨still, rfl, nofun⟩, ?_⟩
      rw [streak, List.countP_append]
      rfl
    -- The circuit becomes half-open here, with the streak that it has.
    | probe hp rested =>
      exact ⟨marks, _, [], rfl, ⟨by simp [Mark.halfOpens, hp], nofun⟩, rfl⟩
    | @trial p _ _ hp few =>
      obtain ⟨before, first, trial, rfl, probing, streak⟩ := ih hp
      let m : Mark := ⟨name, .finish p true, now, c, c.count true⟩
      have still : m.halfOpens = false := by simp [m, Mark.halfOpens, hp]
      refine ⟨before, first, trial ++ [m], by simp [m], probing.concat ⟨still, rfl, nofun⟩, ?_⟩
      rw [List.countP_append, ← Nat.add_assoc, ← streak]
      rfl
    -- After all other marks the circuit is not half-open.
    | refuse hp => cases hp.symm.trans half
    | stay hp => cases hp.symm.trans half
    | late hp => cases hp.symm.trans half
    | trip => cases half
    | close => cases half
    | fail => cases half
    | reset => cases half

/-- A half-open circuit that closes, and is not reset, does so by a success that makes the streak as
long as the threshold of the call. -/
theorem Circuit.Happens.closing {d : Deed} {c c' : Circuit} (h : Happens d now c c')
    (half : c.phase = .halfOpen) (closed : c'.phase = .closed) (hd : d ≠ .reset) :
    ∃ q, d = .finish q true ∧ q.successThreshold ≤ c.streak + 1 := by
  cases h with
  | close hp enough => exact ⟨_, rfl, enough⟩
  | pass => cases half.symm.trans closed
  | trial hp => cases hp.symm.trans closed
  | refuse hp => cases hp.symm.trans half
  | stay hp => cases hp.symm.trans half
  | late hp => cases hp.symm.trans half
  | probe => cases closed
  | trip => cases closed
  | fail => cases closed
  | reset => exact absurd rfl hd

theorem Mark.not_succeeded {m : Mark} (h : m.failed = true) : ¬ m.succeeded = true := by
  obtain ⟨_, deed, _, _, _⟩ := m
  cases deed with
  | finish p ok => cases ok <;> simp_all [failed, succeeded]
  | enter => cases h
  | reset => cases h

namespace Traffic

/-- Take a run in which all calls under a name need `n` successes to close its circuit. When the
half-open circuit closes without being reset, then since it became half-open the last time no call has
failed, and those that have succeeded, the last one included, are `n` together with the successes that
came last before it became half-open. So there are `n` of them if the last call before that failed. -/
theorem successes_before_closing {p : Policy} {g : Grants} {turns : List Turn} {name : String}
    {n : Nat} (same : ∀ o, .begin name o ∈ turns → (p.merge o).successThreshold = n)
    {earlier later : List Mark} {m : Mark}
    (log : ((start p g).play turns).log name = earlier ++ m :: later)
    (half : m.before.phase = .halfOpen) (closed : m.after.phase = .closed) (hm : m.deed ≠ .reset) :
    ∃ before first trial, earlier = before ++ first :: trial ∧ Mark.Probing first trial ∧
      m.succeeded = true ∧
      n ≤ ((Mark.history before).rtakeWhile Mark.succeeded).length +
        (trial.countP Mark.succeeded + 1) ∧
      ((∀ last ∈ (Mark.history before).getLast?, last.failed = true) →
        n ≤ trial.countP Mark.succeeded + 1) := by
  have life : Life name _ _ _ := life_play p g turns name
  have follows : Follows (fun q => q.successThreshold = n) p name _ := follows_play g same
  have mem : m ∈ ((start p g).play turns).log name := by simp [log]
  rw [log] at life
  obtain ⟨past, happens⟩ := life.split
  obtain ⟨q, deed, enough⟩ := happens.closing half closed hm
  have threshold : q.successThreshold = n := follows.log m mem q (by rw [deed]; rfl)
  obtain ⟨before, first, trial, rfl, probing, streak⟩ := past.probing half
  -- The streak at the probe is what the history before it has left over.
  have leftover := past.split.1.tallies.streak
  refine ⟨before, first, trial, rfl, probing, by simp [Mark.succeeded, deed],
    by omega, fun failed => ?_⟩
  have nothing : (Mark.history before).rtakeWhile Mark.succeeded = [] :=
    List.rtakeWhile_eq_nil_iff.2 fun some_ =>
      Mark.not_succeeded (failed _ (List.getLast?_eq_some_getLast some_))
  rw [nothing] at leftover
  simp only [List.length_nil] at leftover
  omega

/-- A failure opens the circuit, and then two trial calls close it. -/
theorem two_successes_after_failure :
    ∃ p turns t m, p = { minimumRequests := 1, timeout := 1000 } ∧
      turns = [.begin "x" {}, .finish 0 false, .pass 1000, .begin "x" {}, .finish 1 true,
        .begin "x" {}, .finish 2 true] ∧
      t = (start p (.start ⟨0, {}, .bounded (.empty 8)⟩ 3600 100)).play turns ∧
      (∀ o, .begin "x" o ∈ turns → (p.merge o).successThreshold = 2) ∧
      t.log "x" = (t.log "x").take 5 ++ [m] ∧ m.before.phase = .halfOpen ∧
      m.after.phase = .closed ∧ m.deed ≠ .reset ∧
      ∃ before first trial, (t.log "x").take 5 = before ++ first :: trial ∧
        Mark.Probing first trial ∧ m.succeeded = true ∧
        2 ≤ ((Mark.history before).rtakeWhile Mark.succeeded).length +
          (trial.countP Mark.succeeded + 1) ∧
        ((∀ last ∈ (Mark.history before).getLast?, last.failed = true) →
          2 ≤ trial.countP Mark.succeeded + 1) := by
  let p : Policy := { minimumRequests := 1, timeout := 1000 }
  let turns : List Turn := [.begin "x" {}, .finish 0 false, .pass 1000, .begin "x" {},
    .finish 1 true, .begin "x" {}, .finish 2 true]
  let t := (start p (.start ⟨0, {}, .bounded (.empty 8)⟩ 3600 100)).play turns
  let m : Mark := ⟨"x", .finish p true, 1000, ⟨.halfOpen, 2, 1, 1, 1, some 0⟩, {}⟩
  have same : ∀ o, .begin "x" o ∈ turns → (p.merge o).successThreshold = 2 := by
    intro o ho
    obtain rfl : o = {} := by simpa [turns] using ho
    rfl
  have log : t.log "x" = (t.log "x").take 5 ++ m :: [] := by decide +kernel
  refine ⟨p, turns, t, m, rfl, rfl, rfl, same, log, rfl, rfl, by decide, ?_⟩
  exact successes_before_closing same log rfl rfl (by decide)

/-- The second call reaches the share of failures and opens the circuit, though it succeeds. It counts
toward closing, so one trial call closes the circuit where it takes two. -/
theorem closed_by_single_trial :
    ∃ p t first m, p = { minimumRequests := 2, timeout := 1000 } ∧
      t = (start p (.start ⟨0, {}, .bounded (.empty 8)⟩ 3600 100)).play [.begin "x" {},
        .finish 0 false, .begin "x" {}, .finish 1 true, .pass 1000, .begin "x" {},
        .finish 2 true] ∧
      (p.merge {}).successThreshold = 2 ∧ t.log "x" = (t.log "x").take 4 ++ [first, m] ∧
      first.halfOpens = true ∧ m.closes = true := by
  let p : Policy := { minimumRequests := 2, timeout := 1000 }
  let opened : Circuit := ⟨.opened, 2, 1, 1, 1, some 0⟩
  let tried : Circuit := ⟨.halfOpen, 2, 1, 1, 1, some 0⟩
  refine ⟨p, _, ⟨"x", .enter p true, 1000, opened, tried⟩, ⟨"x", .finish p true, 1000, tried, {}⟩,
    rfl, rfl, rfl, ?_, by decide, by decide⟩
  decide +kernel

end Traffic

end GrantCache
