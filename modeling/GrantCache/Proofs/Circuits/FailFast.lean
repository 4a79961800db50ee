import GrantCache.Proofs.Circuits.Traffic

/-!
# When a call is refused

The timeout of a circuit counts from a call that has ended and left it open. Until then calls fail
fast: whoever asks to run before its own timeout is over is refused, unless the circuit was reset since,
or was made half-open by a call with a shorter timeout (`Circuit.Life.refuses`). No other call is
refused (`Circuit.Life.exists_opening`); it runs and gives the answer of its own work
(`refused_iff_failsFast`).
-/

namespace GrantCache

open Circuit (Happens Life)

namespace Mark

/-- A call has ended and the circuit is open, with the timeout counting from now. -/
def leavesOpen (m : Mark) : Bool :=
  m.ends && (m.after.phase = .opened && m.after.lastFailure = some m.time)

/-- The circuit becomes half-open by a call whose timeout is shorter than `ms`. -/
def halfOpensBefore (ms : Nat) (m : Mark) : Bool :=
  m.halfOpens && m.deed.policy?.any (·.timeout < ms)

/-- A call with the timeout `ms` comes too early: a call left the circuit open less than that ago, and
since then nobody has reset it, and no call with a shorter timeout has made it half-open. -/
def FailsFast (ms now : Nat) (marks : List Mark) : Prop :=
  ∃ before m since, marks = before ++ m :: since ∧ m.leavesOpen = true ∧ now < m.time + ms ∧
    ∀ s ∈ since, s.deed ≠ .reset ∧ s.halfOpensBefore ms = false

end Mark

namespace Circuit

variable {name : String} {now ms : Nat} {marks before since : List Mark} {m : Mark} {c c' : Circuit}
  {p : Policy} {d : Deed}

theorem rested_of_lastFailure {at_ : Nat} (h : c.lastFailure = some at_) :
    c.rested p now = decide (p.timeout ≤ now - at_) := by rw [rested, h]

/-- Open, with the timeout counting from `start` or a later instant. -/
def OpenSince (start : Nat) (c : Circuit) : Prop :=
  c.phase = .opened ∧ ∃ at_, c.lastFailure = some at_ ∧ start ≤ at_

/-- Before the time `ms` is over, an open circuit stays open unless it is reset or made half-open by a
call with a timeout shorter than that. -/
theorem Happens.openSince {start : Nat} (h : Happens d now c c') (open_ : c.OpenSince start)
    (later : start ≤ now) (within : now < start + ms) (noReset : d ≠ .reset)
    (noTrial : Mark.halfOpensBefore ms ⟨name, d, now, c, c'⟩ = false) : c'.OpenSince start := by
  obtain ⟨phase, at_, last, from_⟩ := open_
  cases h with
  | pass | refuse => exact ⟨phase, at_, last, from_⟩
  | @probe q _ _ _ rested =>
    have long : ms ≤ q.timeout := by
      simpa [Mark.halfOpensBefore, Mark.halfOpens, Deed.policy?, phase] using noTrial
    rw [rested_of_lastFailure last, decide_eq_true_eq] at rested
    omega
  | late => exact ⟨phase, at_, last, from_⟩
  | fail => exact ⟨rfl, now, rfl, later⟩
  | stay h | trip h | trial h | close h => cases h.symm.trans phase
  | reset => exact absurd rfl noReset

/-- Whoever comes too early finds the circuit open and not rested. -/
theorem Life.refuses (life : Life name now marks c) (fast : Mark.FailsFast p.timeout now marks) :
    c.phase = .opened ∧ c.rested p now = false := by
  obtain ⟨before, m, since, rfl, leaves, within, quiet⟩ := fast
  simp only [Mark.leavesOpen, Bool.and_eq_true, decide_eq_true_eq] at leaves
  obtain ⟨-, opened, last⟩ := leaves
  have lasting : m.time ≤ now ∧ c.OpenSince m.time := by
    refine life.since_induction (I := fun now c => m.time ≤ now ∧ c.OpenSince m.time)
      ⟨Nat.le_refl _, opened, _, last, Nat.le_refl _⟩
      (fun ms h => ⟨Nat.le_add_right_of_le h.1, h.2⟩) fun s hs happens h => ⟨h.1, ?_⟩
    obtain ⟨noReset, noTrial⟩ := quiet s hs
    have early : s.time ≤ now := life.time_le (by simp [hs])
    exact happens.openSince h.2 h.1 (Nat.lt_of_le_of_lt early within) noReset noTrial
  obtain ⟨later, phase, at_, last, from_⟩ := lasting
  refine ⟨phase, ?_⟩
  rw [rested_of_lastFailure last, decide_eq_false_iff_not]
  omega

/-- What left an open circuit open was a call that ended, and from it the timeout counts; since then
the circuit has not been reset or half-open. -/
theorem Life.exists_opening (life : Life name now marks c) (opened : c.phase = .opened) :
    ∃ before m since, marks = before ++ m :: since ∧ m.leavesOpen = true ∧
      c.lastFailure = some m.time ∧ ∀ s ∈ since, s.deed ≠ .reset ∧ s.halfOpens = false := by
  induction life with
  | new => cases opened
  | wait _ _ ih => exact ih opened
  | @mark now marks c c' d _ hd ih =>
    let last : Mark := ⟨name, d, now, c, c'⟩
    -- A mark that leaves an open circuit open, with the timeout counting on as before.
    have extend (h : c.phase = .opened) (still : c'.lastFailure = c.lastFailure)
        (quiet : last.deed ≠ .reset ∧ last.halfOpens = false) :
        ∃ before m since, marks ++ [last] = before ++ m :: since ∧ m.leavesOpen = true ∧
          c'.lastFailure = some m.time ∧ ∀ s ∈ since, s.deed ≠ .reset ∧ s.halfOpens = false := by
      obtain ⟨before, m, since, rfl, leaves, from_, others⟩ := ih h
      refine ⟨before, m, since ++ [last], by simp, leaves, still.trans from_, ?_⟩
      exact List.forall_mem_append.2 ⟨others, List.forall_mem_singleton.2 quiet⟩
    cases hd with
    | refuse hp => exact extend hp rfl ⟨nofun, by simp [last, Mark.halfOpens, hp]⟩
    | late hp => exact extend hp rfl ⟨nofun, by simp [last, Mark.halfOpens, hp]⟩
    | trip => exact ⟨marks, last, [], rfl, by simp [last, Mark.leavesOpen, Mark.ends], rfl, nofun⟩
    | fail => exact ⟨marks, last, [], rfl, by simp [last, Mark.leavesOpen, Mark.ends], rfl, nofun⟩
    | pass hp => exact absurd opened hp
    | stay hp => cases hp.symm.trans opened
    | trial hp => cases hp.symm.trans opened
    | probe => cases opened
    | close => cases opened
    | reset => cases opened

/-- An open circuit that has not rested is what a call finds that comes too early. -/
theorem Life.refuses_iff (life : Life name now marks c) :
    c.phase = .opened ∧ c.rested p now = false ↔ Mark.FailsFast p.timeout now marks := by
  refine ⟨fun ⟨opened, tired⟩ => ?_, life.refuses⟩
  obtain ⟨before, m, since, rfl, leaves, last, quiet⟩ := life.exists_opening opened
  have past : m.time ≤ now := life.time_le (by simp)
  rw [rested_of_lastFailure last, decide_eq_false_iff_not] at tired
  refine ⟨before, m, since, rfl, leaves, by omega, fun s hs => ?_⟩
  obtain ⟨noReset, noTrial⟩ := quiet s hs
  exact ⟨noReset, by rw [Mark.halfOpensBefore, noTrial, Bool.false_and]⟩

end Circuit

namespace Traffic

/-- Take any state that a run reaches, and a call under a name that comes then. It is refused if and
only if it comes too early. A call that is refused is told so, its work does not run, and every circuit
stays as it is. A call that is not refused gives the answer of its work or the error of its work, which
runs from where the circuit has let it in; if the work gives none, the call gives none. -/
theorem refused_iff_failsFast (p : Policy) (g : Grants) (turns : List Turn) (name : String)
    (o : Policy.Override) {ε α : Type} (work : Grants → Option (Except ε α) × Grants) :
    let t := (start p g).play turns
    let ms := (p.merge o).timeout
    let entered := t.grants.enter name (p.merge o)
    (entered.1 = false ↔ Mark.FailsFast ms t.now (t.log name)) ∧
    (Mark.FailsFast ms t.now (t.log name) →
      t.grants.guarded name o work = (some (.error (.refused name)), entered.2) ∧
        ∀ other, entered.2.circuit other = t.circuit other) ∧
    (¬ Mark.FailsFast ms t.now (t.log name) →
      (t.grants.guarded name o work).1 = (work entered.2).1.map (·.mapError .failed)) := by
  intro t ms entered
  have follows : Follows (fun _ => True) p name t := follows_play g fun _ _ => trivial
  -- No step changes the default thresholds.
  have policy : t.grants.policy o = p.merge o := by rw [Grants.policy, follows.defaults]
  have refused : entered.1 = false ↔ Mark.FailsFast ms t.now (t.log name) :=
    (Circuit.enter_eq_false_iff ..).trans (life_play p g turns name).refuses_iff
  refine ⟨refused, fun fast => ?_, fun slow => ?_⟩
  · have out : entered.1 = false := refused.2 fast
    refine ⟨?_, fun other => ?_⟩
    · rw [Grants.guarded_of_refused (by rw [policy]; exact out), policy]
    · exact Grants.circuit_enter_of_refused out other
  · have in_ : entered.1 = true := eq_true_of_ne_false fun out => slow (refused.1 out)
    rw [Grants.guarded_of_admitted (by rw [policy]; exact in_), policy]
    rcases work entered.2 with ⟨_ | _, _⟩ <;> rfl

end Traffic

end GrantCache
