import GrantCache.Proofs.Circuits.Tally
import GrantCache.Settings

/-!
# When a circuit opens

The counts of a circuit are looked at each time that a call ends while the circuit is closed. So when
all calls under a name have the same thresholds, the circuit is closed exactly as long as the calls
that have ended since its counts were zero have never called for opening it, at no point in between
(`Circuit.Life.closed_iff`). With settings that have no defect, whether the circuit has thresholds of
its own or not, a share of failures is never taken of no calls, and no circuit opens without a failure
(`closed_iff_never_tripped`).
-/

namespace GrantCache

open Circuit (Happens Life)

/-! ## Thresholds that are fit for use -/

namespace Policy

structure Fit (p : Policy) : Prop where
  share : Settings.isShare p.failureThreshold = true
  successes : p.successThreshold ≠ 0
  requests : p.minimumRequests ≠ 0
  timeout : p.timeout ≠ 0

theorem fit_of_policyDefects {p : Policy} (h : Settings.policyDefects p = []) : p.Fit := by
  simp only [Settings.policyDefects, List.append_eq_nil_iff, Settings.defectIf_eq_nil,
    Bool.not_eq_false', decide_eq_false_iff_not] at h
  obtain ⟨⟨⟨share, successes⟩, requests⟩, timeout⟩ := h
  exact ⟨share, successes, requests, timeout⟩

/-- What is set over thresholds that are fit for use, and has no defect, leaves them so. -/
theorem Fit.merge {p : Policy} (h : p.Fit) {o : Policy.Override}
    (ho : Settings.overrideDefects o = []) : (p.merge o).Fit := by
  simp only [Settings.overrideDefects, List.append_eq_nil_iff, Settings.defectIf_eq_nil,
    decide_eq_false_iff_not] at ho
  obtain ⟨⟨⟨share, successes⟩, requests⟩, timeout⟩ := ho
  have positive {n : Nat} {own : Option Nat} (hn : n ≠ 0) (hown : ¬ own = some 0) :
      own.getD n ≠ 0 := by
    cases own with
    | none => exact hn
    | some k => exact fun zero => hown (congrArg some zero)
  refine ⟨?_, positive h.successes successes, positive h.requests requests,
    positive h.timeout timeout⟩
  obtain ⟨own, _, _, _⟩ := o
  cases own with
  | none => exact h.share
  | some x =>
    have fits : Settings.isShare x = true := by simpa using share
    exact fits

/-- Calls that have ended call for opening a circuit: they are enough, and the share of failures
reaches the threshold. -/
def Trips (p : Policy) (h : List Mark) : Prop :=
  p.minimumRequests ≤ h.length ∧
    p.failureThreshold.le (Circuit.share (h.countP Mark.failed) h.length) = true

theorem trips_iff {p : Policy} {h : List Mark} {c : Circuit} (hc : Mark.Counted h c) :
    c.shouldTrip p = true ↔ p.Trips h := by
  rw [Circuit.shouldTrip, Trips, hc.requests, hc.failures, Bool.and_eq_true, decide_eq_true_eq]

/-- No threshold that is fit for use is reached without a failure. -/
theorem Fit.failed_of_trips {p : Policy} (fit : p.Fit) {h : List Mark} (trips : p.Trips h) :
    ∃ m ∈ h, m.failed = true := by
  have some_ : h.countP Mark.failed ≠ 0 := by
    intro none
    have reached := trips.2
    rw [none, Circuit.share_zero] at reached
    have above : Binary64.zero.lt p.failureThreshold = true :=
      (Bool.and_eq_true_iff.1 fit.share).1
    rw [Binary64.not_le_of_lt above] at reached
    cases reached
  exact List.countP_pos_iff.1 (Nat.pos_of_ne_zero some_)

end Policy

theorem Settings.fit_of_no_defects {s : Settings} (h : s.defects = []) :
    s.circuits.policy.Fit ∧ (s.circuits.policy.merge s.circuits.cache).Fit := by
  simp only [Settings.defects, List.append_eq_nil_iff] at h
  obtain ⟨⟨⟨⟨⟨⟨-, policy⟩, cache⟩, -⟩, -⟩, -⟩, -⟩ := h
  have fit := Policy.fit_of_policyDefects policy
  exact ⟨fit, fit.merge cache⟩

/-! ## Closed for as long as the counts do not call for opening -/

section Lives

variable {name : String} {now : Nat} {marks : List Mark} {c c' : Circuit} {p : Policy} {m : Mark}
  {d : Deed}

/-- Nothing that has ended up to any point calls for opening the circuit. -/
def Policy.NeverTrips (p : Policy) (h : List Mark) : Prop :=
  ∀ first, first <+: h → first ≠ [] → ¬ p.Trips first

theorem Policy.neverTrips_nil (p : Policy) : p.NeverTrips [] := fun _ hf some =>
  absurd (List.prefix_nil.1 hf) some

/-- One more call looks at all calls once more. -/
theorem Policy.neverTrips_concat {h : List Mark} :
    p.NeverTrips (h ++ [m]) ↔ p.NeverTrips h ∧ ¬ p.Trips (h ++ [m]) := by
  constructor
  · intro never
    refine ⟨fun first hf some => never first (hf.trans (List.prefix_append ..)) some, ?_⟩
    exact never _ (List.prefix_refl _) (by simp)
  · rintro ⟨before, last⟩ first hf some
    rcases List.prefix_concat_iff.1 hf with rfl | old
    · exact last
    · exact before first old some

/-- Under thresholds that all calls share, a circuit is closed as long as its history has at no point
called for opening it. -/
theorem Circuit.Life.closed_iff (life : Life name now marks c)
    (same : ∀ m ∈ marks, ∀ q, m.deed.policy? = some q → q = p) :
    c.phase = .closed ↔ p.NeverTrips (Mark.history marks) := by
  induction life with
  | new => exact ⟨fun _ => p.neverTrips_nil, fun _ => rfl⟩
  | wait _ _ ih => exact ih same
  | @mark now marks c c' d life hd ih =>
    have tallies := life.tallies
    have ih := ih fun m hm => same m (List.mem_append_left _ hm)
    have own : ∀ q, d.policy? = some q → q = p :=
      same _ (List.mem_append_right _ List.mem_cons_self)
    cases hd with
    -- Entries add nothing to the history.
    | pass hp =>
      rw [Mark.history_concat_enter rfl]
      exact ih
    | refuse hp tired =>
      rw [Mark.history_concat_enter rfl]
      exact ih
    | probe hp rested =>
      rw [Mark.history_concat_enter rfl, ← ih, hp]
      simp
    -- Ends at a closed circuit add to the history, and the circuit judges them by its counts, which
    -- are those of the history.
    | stay hp calm =>
      obtain rfl := own _ rfl
      rw [Mark.history_concat_finish rfl (by simp [Mark.closes, hp]), Policy.neverTrips_concat,
        ← ih, ← Policy.trips_iff (tallies.count rfl), calm]
      simp
    | trip hp trips =>
      obtain rfl := own _ rfl
      rw [Mark.history_concat_finish rfl (by simp [Mark.closes, hp]), Policy.neverTrips_concat,
        ← ih, ← Policy.trips_iff (tallies.count rfl), trips]
      simp
    -- The circuit is not closed: the history has tripped before, and one more end does not undo it.
    | trial hp few =>
      rw [Mark.history_concat_finish rfl (by simp [Mark.closes, hp]), Policy.neverTrips_concat,
        ← ih]
      simp [hp]
    -- The history begins anew.
    | close hp enough =>
      rw [Mark.history_concat_of_zeroes (by simp [Mark.zeroes, Mark.closes, Mark.succeeded, hp])]
      exact ⟨fun _ => p.neverTrips_nil, fun _ => rfl⟩
    | late hp =>
      rw [Mark.history_concat_finish rfl (by simp [Mark.closes, hp]), Policy.neverTrips_concat,
        ← ih]
      simp [hp]
    | fail hp =>
      rw [Mark.history_concat_finish rfl (by simp [Mark.closes, Mark.succeeded]),
        Policy.neverTrips_concat, ← ih]
      simp [hp]
    | reset =>
      rw [Mark.history_concat_of_zeroes (by simp [Mark.zeroes])]
      exact ⟨fun _ => p.neverTrips_nil, fun _ => rfl⟩

/-- Whoever is not closed has been tripped at some point since the counts were zero. -/
theorem Policy.exists_trips {h : List Mark} (tripped : ¬ p.NeverTrips h) :
    ∃ first, first <+: h ∧ first ≠ [] ∧ p.Trips first := by
  simpa [Policy.NeverTrips] using tripped

end Lives

namespace Traffic

/-- Take settings without defects, and the thresholds of the circuits or those of the remote store's
circuit. They make sense. And in every run in which all calls under a name have these thresholds, the
circuit is closed exactly as long as the calls that have ended since its counts were zero have at no
point called for opening it. So it opens neither before enough calls have ended nor without a failure;
and wherever there are enough calls, their number is not zero. -/
theorem closed_iff_never_tripped {s : Settings} (fit : s.defects = []) {c : Policy}
    (hc : c = s.circuits.policy ∨ c = s.circuits.policy.merge s.circuits.cache) {p : Policy}
    {g : Grants} {turns : List Turn} {name : String}
    (same : ∀ o, .begin name o ∈ turns → p.merge o = c) :
    let t := (start p g).play turns
    let h := t.history name
    (Binary64.zero.lt c.failureThreshold = true ∧ c.failureThreshold.le .one = true ∧
      c.successThreshold ≠ 0 ∧ c.minimumRequests ≠ 0 ∧ c.timeout ≠ 0) ∧
    ((t.circuit name).phase = .closed ↔ ∀ first, first <+: h → first ≠ [] → ¬ c.Trips first) ∧
    ((t.circuit name).phase ≠ .closed →
      c.minimumRequests ≤ h.length ∧ ∃ m ∈ h, m.failed = true) ∧
    ∀ first, first <+: h → c.minimumRequests ≤ first.length → first.length ≠ 0 := by
  intro t h
  have sense : c.Fit := by
    obtain ⟨base, merged⟩ := Settings.fit_of_no_defects fit
    rcases hc with rfl | rfl
    · exact base
    · exact merged
  have closed : (t.circuit name).phase = .closed ↔ c.NeverTrips h :=
    (life_play p g turns name).closed_iff (follows_play g same).log
  obtain ⟨above, most⟩ := Bool.and_eq_true_iff.1 sense.share
  refine ⟨⟨above, most, sense.successes, sense.requests, sense.timeout⟩, closed, fun opened => ?_,
    fun first _ enough => ?_⟩
  · obtain ⟨first, hf, -, trips⟩ := Policy.exists_trips fun never => opened (closed.2 never)
    obtain ⟨m, hm, failed⟩ := sense.failed_of_trips trips
    exact ⟨Nat.le_trans trips.1 hf.length_le, m, hf.subset hm, failed⟩
  · have some_ := sense.requests
    omega

/-- One call of two fails, and the success that ends after it opens the circuit. -/
theorem opened_by_success :
    ∃ (s : Settings) (turns : List Turn) (t : Traffic),
      s = { circuits.cache.minimumRequests := some 2 } ∧
      turns = [.begin "x" s.circuits.cache, .begin "x" s.circuits.cache, .finish 1 false,
        .finish 0 true] ∧
      t = (start s.circuits.policy (.start ⟨0, {}, .bounded (.empty 8)⟩ 3600 100)).play turns ∧
      let c := s.circuits.policy.merge s.circuits.cache
      let h := t.history "x"
      s.defects = [] ∧ (∀ o, .begin "x" o ∈ turns → s.circuits.policy.merge o = c) ∧
      (t.circuit "x").phase = .opened ∧
      (Binary64.zero.lt c.failureThreshold = true ∧ c.failureThreshold.le .one = true ∧
        c.successThreshold ≠ 0 ∧ c.minimumRequests ≠ 0 ∧ c.timeout ≠ 0) ∧
      ((t.circuit "x").phase = .closed ↔ ∀ first, first <+: h → first ≠ [] → ¬ c.Trips first) ∧
      ((t.circuit "x").phase ≠ .closed →
        c.minimumRequests ≤ h.length ∧ ∃ m ∈ h, m.failed = true) ∧
      ∀ first, first <+: h → c.minimumRequests ≤ first.length → first.length ≠ 0 := by
  let s : Settings := { circuits.cache.minimumRequests := some 2 }
  let turns : List Turn := [.begin "x" s.circuits.cache, .begin "x" s.circuits.cache,
    .finish 1 false, .finish 0 true]
  have fit : s.defects = [] := by decide +kernel
  have same : ∀ o, .begin "x" o ∈ turns →
      s.circuits.policy.merge o = s.circuits.policy.merge s.circuits.cache := by
    intro o ho
    obtain rfl : o = s.circuits.cache := by simpa [turns] using ho
    rfl
  refine ⟨s, turns, _, rfl, rfl, rfl, fit, same, by decide +kernel, ?_⟩
  exact closed_iff_never_tripped fit (.inr rfl) same

end Traffic

end GrantCache
