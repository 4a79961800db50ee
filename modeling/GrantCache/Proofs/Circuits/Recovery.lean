import GrantCache.Proofs.Circuits.Traffic

/-!
# Recovery

A circuit that has tripped finds its way back. When the timeout is over, calls that succeed one after
another are all let in, whatever the circuit has gone through before, and after as many as the
threshold asks for the circuit is closed. Closing takes the failures off the record, so successes
cannot trip it again.

`Circuit.Recovering` is what holds on the way. Whatever happens at the circuit keeps it, unless a call
ends (`Circuit.Recovering.happens`); a success brings the circuit one step further
(`Circuit.Recovering.succeed`).
-/

namespace GrantCache

open Circuit (Happens Life)

namespace Circuit

variable {now at_ k : Nat} {c c' : Circuit} {p : Policy} {d : Deed} {name : String}

/-! ## On the way to being closed -/

/-- Closed with no failure on record, or still open to trial calls, of which `k` have succeeded and
more are needed. -/
def Recovering (p : Policy) (k now : Nat) (c : Circuit) : Prop :=
  c.phase = .closed ∧ c.failures = 0 ∨
    c.phase ≠ .closed ∧ c.rested p now = true ∧ k ≤ c.streak ∧ k < p.successThreshold

theorem rested_iff :
    c.rested p now = true ↔ ∀ at_, c.lastFailure = some at_ → p.timeout ≤ now - at_ := by
  rw [rested]
  cases c.lastFailure with
  | none => simp
  | some at_ => simp

theorem rested_later {now' : Nat} (h : c.rested p now = true) (later : now ≤ now') :
    c.rested p now' = true := by
  rw [rested_iff] at h ⊢
  intro at_ last
  have before := h at_ last
  omega

theorem Recovering.later {now' : Nat} (h : c.Recovering p k now) (later : now ≤ now') :
    c.Recovering p k now' := by
  rcases h with closed | ⟨phase, rested, streak, more⟩
  · exact .inl closed
  · exact .inr ⟨phase, rested_later rested later, streak, more⟩

/-- Without failures on record the share of failures is zero, and that is below any threshold. -/
theorem calm_of_no_failures (none : c.failures = 0)
    (threshold : Binary64.zero.lt p.failureThreshold = true) : c.shouldTrip p = false := by
  rw [shouldTrip, none, share_zero, Binary64.not_le_of_lt threshold, Bool.and_false]

/-- What happens without a call coming to its end does not throw the circuit back. -/
theorem Recovering.happens (h : c.Recovering p k now) (hd : Happens d at_ c c')
    (noEnd : ∀ q ok, d ≠ .finish q ok) :
    c'.Recovering p k now ∧ (c.phase ≠ .opened → c'.phase ≠ .opened) := by
  cases hd with
  | pass => exact ⟨h, id⟩
  | refuse => exact ⟨h, id⟩
  | probe opened _ =>
    rcases h with ⟨closed, _⟩ | ⟨_, rested, streak, more⟩
    · cases opened.symm.trans closed
    · exact ⟨.inr ⟨by simp, rested, streak, more⟩, by simp⟩
  | reset => exact ⟨.inl ⟨rfl, rfl⟩, by simp⟩
  | stay | trip | trial | close | late | fail => exact absurd rfl (noEnd _ _)

/-- A call is let in, and then the circuit is not open. -/
theorem Recovering.enter (h : c.Recovering p k now) (name : String) :
    (c.enter name p now).1 = true ∧ (c.enter name p now).2.1.Recovering p k now ∧
      (c.enter name p now).2.1.phase ≠ .opened := by
  have admitted : (c.enter name p now).1 = true := by
    refine eq_true_of_ne_false fun refused => ?_
    obtain ⟨opened, tired⟩ := (enter_eq_false_iff name p now c).1 refused
    rcases h with ⟨closed, _⟩ | ⟨_, rested, _⟩
    · cases opened.symm.trans closed
    · cases rested.symm.trans tired
  have happens := happens_enter name p now c
  refine ⟨admitted, (h.happens happens nofun).1, ?_⟩
  rw [admitted] at happens
  generalize (c.enter name p now).2.1 = c' at happens
  cases happens with
  | pass phase => exact phase
  | probe => simp

/-- A success is one more trial call that has succeeded, and it trips nothing. -/
theorem Recovering.succeed (h : c.Recovering p k now)
    (threshold : Binary64.zero.lt p.failureThreshold = true)
    (hd : Happens (.finish p true) now c c') (notOpen : c.phase ≠ .opened) :
    c'.Recovering p (k + 1) now := by
  cases hd with
  | stay closed _ =>
    rcases h with ⟨_, none⟩ | ⟨phase, _⟩
    · exact .inl ⟨closed, none⟩
    · exact absurd closed phase
  | trip closed trips =>
    rcases h with ⟨_, none⟩ | ⟨phase, _⟩
    · cases trips.symm.trans (calm_of_no_failures (c := c.count true) none threshold)
    · exact absurd closed phase
  | trial half few =>
    rcases h with ⟨closed, _⟩ | ⟨phase, rested, streak, _⟩
    · cases half.symm.trans closed
    · have more : k + 1 ≤ c.streak + 1 := Nat.succ_le_succ streak
      exact .inr ⟨phase, rested, more, Nat.lt_of_le_of_lt more few⟩
  | close => exact .inl ⟨rfl, rfl⟩
  | late opened => exact absurd opened notOpen

/-- The timeout never counts from a later instant than the present. -/
theorem Life.lastFailure_le {marks : List Mark} (life : Life name now marks c)
    (last : c.lastFailure = some at_) : at_ ≤ now := by
  induction life with
  | new => cases last
  | wait _ ms ih => exact Nat.le_trans (ih last) (Nat.le_add_right ..)
  | mark _ hd ih =>
    cases hd with
    | pass | refuse | probe | stay | trial | late => exact ih last
    | trip | fail =>
      obtain rfl := Option.some.inj last
      exact Nat.le_refl _
    | close | reset => cases last

/-- A circuit that has tripped is about to recover when the timeout from now is over. -/
theorem Life.recovering {marks : List Mark} (life : Life name now marks c)
    (tripped : c.phase ≠ .closed) (some_ : 1 ≤ p.successThreshold) :
    c.Recovering p 0 (now + p.timeout) := by
  refine .inr ⟨tripped, rested_iff.2 fun at_ last => ?_, Nat.zero_le _, some_⟩
  have past := life.lastFailure_le last
  omega

/-- After enough of them the circuit is closed. -/
theorem Recovering.closed (h : c.Recovering p k now) (enough : p.successThreshold ≤ k) :
    c.phase = .closed ∧ c.failures = 0 := by
  rcases h with closed | ⟨_, _, _, more⟩
  · exact closed
  · omega

end Circuit

namespace Traffic

/-! ## Turns in which no call ends -/

/-- Whether in a turn a call under a name comes to its end. -/
def ends (name : String) (t : Traffic) : Turn → Bool
  | .finish i _ => (t.callers[i]?).any fun caller => caller.name = name && caller.running
  | _ => false

/-- No call under a name comes to its end. -/
def quiet (name : String) : List Turn → Traffic → Bool
  | [], _ => true
  | d :: rest, t => !t.ends name d && quiet name rest (t.turn d)

variable {t : Traffic} {name : String} {d : Turn} {turns : List Turn} {p q : Policy} {k i : Nat}

/-- What happens at a circuit in a turn in which no call ends there. -/
theorem turn_of_not_ends (h : t.ends name d = false) :
    t.now ≤ (t.turn d).now ∧ ((t.turn d).circuit name = t.circuit name ∨
      ∃ deed, Happens deed t.now (t.circuit name) ((t.turn d).circuit name) ∧
        ∀ r ok, deed ≠ .finish r ok) := by
  cases d with
  | begin at_ o =>
    refine ⟨Nat.le_refl _, ?_⟩
    by_cases same : at_ = name
    · subst same
      exact .inr ⟨_, Grants.happens_enter at_ (t.grants.policy o) t.grants, by simp⟩
    · exact .inl (Grants.circuit_enter_of_ne same _ t.grants)
  | finish i ok =>
    rw [turn]
    split
    · rename_i at_ r running
      -- The call that ends is under another name.
      have other : at_ ≠ name := by simpa [ends, running] using h
      exact ⟨Nat.le_refl _, .inl (Grants.circuit_leave_of_ne other r ok t.grants)⟩
    · exact ⟨Nat.le_refl _, .inl rfl⟩
  | abandon i =>
    rw [now, now, circuit, circuit, (turn_abandon i t).2]
    exact ⟨Nat.le_refl _, .inl rfl⟩
  | reset at_ =>
    refine ⟨Nat.le_refl _, ?_⟩
    by_cases same : at_ = name
    · subst same
      exact .inr ⟨_, Grants.happens_resetCircuit at_ t.grants, by simp⟩
    · exact .inl (Grants.circuit_resetCircuit_of_ne same t.grants)
  | pass ms => exact ⟨Nat.le_add_right .., .inl rfl⟩

/-- As long as no call ends, a circuit that recovers goes on to do so, and does not open. -/
theorem recovering_play {now : Nat} (h : (t.circuit name).Recovering p k now)
    (calm : t.quiet name turns = true) :
    ((t.play turns).circuit name).Recovering p k now ∧
      ((t.circuit name).phase ≠ .opened → ((t.play turns).circuit name).phase ≠ .opened) := by
  induction turns generalizing t with
  | nil => exact ⟨h, id⟩
  | cons d rest ih =>
    obtain ⟨noEnd, calm⟩ := Bool.and_eq_true_iff.1 calm
    have step : ((t.turn d).circuit name).Recovering p k now ∧
        ((t.circuit name).phase ≠ .opened → ((t.turn d).circuit name).phase ≠ .opened) := by
      obtain ⟨-, same | ⟨deed, happens, other⟩⟩ := turn_of_not_ends (Bool.not_eq_true' _ ▸ noEnd)
      · rw [same]
        exact ⟨h, id⟩
      · exact h.happens happens other
    obtain ⟨last, phase⟩ := ih step.1 calm
    exact ⟨last, phase ∘ step.2⟩

theorem now_le_play (calm : t.quiet name turns = true) : t.now ≤ (t.play turns).now := by
  induction turns generalizing t with
  | nil => exact Nat.le_refl _
  | cons d rest ih =>
    obtain ⟨noEnd, calm⟩ := Bool.and_eq_true_iff.1 calm
    exact Nat.le_trans (turn_of_not_ends (Bool.not_eq_true' _ ▸ noEnd)).1 (ih calm)

/-- A call under way stays so in a turn in which no call under its name ends, unless it is given up. -/
theorem running_turn (h : t.callers[i]? = some ⟨name, q, true⟩) (noEnd : t.ends name d = false)
    (kept : d ≠ .abandon i) : (t.turn d).callers[i]? = some ⟨name, q, true⟩ := by
  cases d with
  | begin at_ o =>
    have bound := (List.getElem?_eq_some_iff.1 h).1
    exact (List.getElem?_append_left bound).trans h
  | finish j ok =>
    rw [turn]
    split
    · have other : j ≠ i := by
        rintro rfl
        simp [ends, h] at noEnd
      exact (List.getElem?_set_ne other).trans h
    · exact h
  | abandon j =>
    have other : j ≠ i := fun same => kept (same ▸ rfl)
    rw [turn]
    split
    · exact (List.getElem?_set_ne other).trans h
    · exact h
  | reset | pass => exact h

theorem running_play (h : t.callers[i]? = some ⟨name, q, true⟩) (calm : t.quiet name turns = true)
    (kept : .abandon i ∉ turns) : (t.play turns).callers[i]? = some ⟨name, q, true⟩ := by
  induction turns generalizing t with
  | nil => exact h
  | cons d rest ih =>
    obtain ⟨noEnd, calm⟩ := Bool.and_eq_true_iff.1 calm
    rw [List.mem_cons, not_or] at kept
    exact ih (running_turn h (Bool.not_eq_true' _ ▸ noEnd) fun same => kept.1 same.symm) calm kept.2

@[simp] theorem defaults_turn (d : Turn) (t : Traffic) :
    (t.turn d).grants.host.breaker.defaults = t.grants.host.breaker.defaults := by
  cases d with
  | begin | reset | pass => rfl
  | finish | abandon =>
    rw [turn]
    split <;> rfl

theorem defaults_play (turns : List Turn) (t : Traffic) :
    (t.play turns).grants.host.breaker.defaults = t.grants.host.breaker.defaults :=
  play_induction (I := fun t' => t'.grants.host.breaker.defaults = t.grants.host.breaker.defaults)
    rfl fun d _ h => (defaults_turn d _).trans h

/-! ## Calls that succeed, one after another -/

/-- A call, with what goes on while it runs and after it. -/
structure Trial where
  own : Policy.Override
  during : List Turn := []
  after : List Turn := []

/-- A call under a name begins, and comes to a good end. -/
def succeed (name : String) (c : Trial) (t : Traffic) : Traffic :=
  (((t.turn (.begin name c.own)).play c.during).turn (.finish t.callers.length true)).play c.after

def succeedEach (name : String) (cs : List Trial) (t : Traffic) : Traffic :=
  cs.foldl (fun t c => t.succeed name c) t

/-- The calls are not given up, and no other call under the name ends while they run or in between. -/
def undisturbed (name : String) : List Trial → Traffic → Bool
  | [], _ => true
  | c :: rest, t =>
    let begun := t.turn (.begin name c.own)
    let ended := (begun.play c.during).turn (.finish t.callers.length true)
    begun.quiet name c.during && decide (.abandon t.callers.length ∉ c.during) &&
      ended.quiet name c.after && undisturbed name rest (t.succeed name c)

theorem defaults_succeed (name : String) (c : Trial) (t : Traffic) :
    (t.succeed name c).grants.host.breaker.defaults = t.grants.host.breaker.defaults := by
  rw [succeed, defaults_play, defaults_turn, defaults_play, defaults_turn]

/-- A call is let in by a circuit that recovers. -/
theorem admitted_of_recovering (h : (t.circuit name).Recovering q k t.now) :
    (t.grants.enter name q).1 = true := (h.enter name).1

theorem recovering_succeed {c : Trial} {cs : List Trial}
    (h : (t.circuit name).Recovering q k t.now)
    (threshold : Binary64.zero.lt q.failureThreshold = true)
    (own : t.grants.host.breaker.defaults.merge c.own = q)
    (calm : t.undisturbed name (c :: cs) = true) :
    ((t.succeed name c).circuit name).Recovering q (k + 1) (t.succeed name c).now ∧
      (t.succeed name c).undisturbed name cs = true := by
  simp only [undisturbed, Bool.and_eq_true, decide_eq_true_eq] at calm
  obtain ⟨⟨⟨during, kept⟩, after⟩, rest⟩ := calm
  refine ⟨?_, rest⟩
  let begun := t.turn (.begin name c.own)
  have policy : t.grants.policy c.own = q := own
  obtain ⟨admitted, recovering, notOpen⟩ := h.enter name
  have entered : begun.circuit name = ((t.circuit name).enter name q t.now).2.1 := by
    rw [← policy]
    exact Breaker.circuit_put_self ..
  have first : (begun.circuit name).Recovering q k begun.now ∧
      (begun.circuit name).phase ≠ .opened := by
    rw [entered]
    exact ⟨recovering, notOpen⟩
  have running : begun.callers[t.callers.length]? = some ⟨name, q, true⟩ := by
    have last : begun.callers = t.callers ++ [⟨name, q, true⟩] := by
      simp only [begun, turn, policy, admitted_of_recovering h]
    rw [last, List.getElem?_concat_length]
  -- The call ends while the circuit is not open, and that is one success more.
  obtain ⟨meanwhile, open_⟩ := recovering_play first.1 during
  have still := running_play running during kept
  let done := (begun.play c.during).turn (.finish t.callers.length true)
  have now : done.now = (begun.play c.during).now := by
    rw [Traffic.now, turn_finish still]
    rfl
  have ended : (done.circuit name).Recovering q (k + 1) done.now := by
    have happens := Grants.happens_leave name q true (begun.play c.during).grants
    rw [now, circuit, turn_finish still]
    exact (meanwhile.later (now_le_play during)).succeed threshold happens (open_ first.2)
  exact (recovering_play ended after).1.later (now_le_play after)

theorem recovering_succeedEach {first rest : List Trial}
    (h : (t.circuit name).Recovering q k t.now)
    (threshold : Binary64.zero.lt q.failureThreshold = true)
    (own : ∀ c ∈ first, t.grants.host.breaker.defaults.merge c.own = q)
    (calm : t.undisturbed name (first ++ rest) = true) :
    let s := t.succeedEach name first
    (s.circuit name).Recovering q (k + first.length) s.now ∧ s.undisturbed name rest = true ∧
      s.grants.host.breaker.defaults = t.grants.host.breaker.defaults := by
  induction first generalizing t k with
  | nil => exact ⟨h, calm, rfl⟩
  | cons c first ih =>
    obtain ⟨next, calm⟩ := recovering_succeed h threshold (own c List.mem_cons_self) calm
    have same := defaults_succeed name c t
    obtain ⟨last, calm, defaults⟩ :=
      ih next (fun c hc => by rw [same]; exact own c (List.mem_cons_of_mem _ hc)) calm
    refine ⟨?_, calm, defaults.trans same⟩
    rw [List.length_cons, Nat.add_comm first.length, ← Nat.add_assoc]
    exact last

/-- Take any state that a run reaches in which the circuit of a name is open or half-open. The timeout
of a policy passes, and then calls with that policy succeed one after another, while no other call under
the name ends. Each of them is let in and does its work, and once as many have succeeded as the policy
asks for, the circuit is closed after this one and after every later one, with no failure on record. -/
theorem tripped_recovers {p q : Policy} {g : Grants} {before waiting : List Turn} {name : String}
    {first : List Trial} {c : Trial}
    (tripped : (((start p g).play before).circuit name).phase ≠ .closed)
    (threshold : Binary64.zero.lt q.failureThreshold = true) (some_ : 1 ≤ q.successThreshold)
    (waits : ((start p g).play before).quiet name waiting = true)
    (waited : ((start p g).play before).now + q.timeout ≤
      (((start p g).play before).play waiting).now)
    (own : ∀ call ∈ first ++ [c], p.merge call.own = q)
    (calm : (((start p g).play before).play waiting).undisturbed name (first ++ [c]) = true) :
    let t := (((start p g).play before).play waiting).succeedEach name first
    (t.grants.enter name q).1 = true ∧
    (∀ {ε α : Type} (work : Grants → Option (Except ε α) × Grants),
      (t.grants.guarded name c.own work).1 =
        (work (t.grants.enter name q).2).1.map (·.mapError .failed)) ∧
    (q.successThreshold ≤ first.length + 1 →
      ((t.succeed name c).circuit name).phase = .closed ∧
        ((t.succeed name c).circuit name).failures = 0) := by
  intro t
  let reached := (start p g).play before
  have defaults : (reached.play waiting).grants.host.breaker.defaults = p := by
    rw [defaults_play, defaults_play]
    rfl
  -- What has tripped is rested when the timeout is over, and has all of its successes before it.
  have life : Life name _ _ _ := life_play p g before name
  have recovering := (recovering_play (life.recovering tripped some_) waits).1.later waited
  obtain ⟨arrived, calm, same⟩ := recovering_succeedEach recovering threshold (fun call hc => by
    rw [defaults]
    exact own call (List.mem_append_left _ hc)) calm
  have policy : t.grants.policy c.own = q := by
    rw [Grants.policy, same, defaults]
    exact own c (by simp)
  have admitted : (t.grants.enter name q).1 = true := admitted_of_recovering arrived
  refine ⟨admitted, fun work => ?_, fun enough => ?_⟩
  · rw [Grants.guarded_of_admitted (by rw [policy]; exact admitted), policy]
    rcases work (t.grants.enter name q).2 with ⟨_ | _, _⟩ <;> rfl
  · have ended := (recovering_succeed arrived threshold policy calm).1
    exact ended.closed (by omega)

/-- A failure opens the circuit, and a call that ends late while it is open leaves a success behind. A
third call stays under way. Of three calls that succeed then, the second closes the circuit already, and
it is still closed after the third. -/
theorem tripped_recovers_after_late_success :
    ∃ (p q : Policy) (own : Policy.Override) (before waiting : List Turn) (first : List Trial)
      (c : Trial) (s t : Traffic),
      p = { minimumRequests := 1 } ∧ own = { successThreshold := some 3, timeout := some 50 } ∧
      q = p.merge own ∧
      before = [.begin "x" {}, .begin "x" {}, .begin "x" {}, .finish 0 false, .finish 1 true] ∧
      waiting = [.pass 20, .begin "x" {}, .pass 30] ∧
      first = [⟨own, [.pass 5, .begin "y" {}], []⟩, ⟨own, [], [.finish 5 false]⟩] ∧
      c = ⟨own, [], []⟩ ∧
      s = (start p (.start ⟨0, {}, .bounded (.empty 8)⟩ 3600 100)).play before ∧
      t = (s.play waiting).succeedEach "x" first ∧
      (s.circuit "x").phase = .opened ∧ Binary64.zero.lt q.failureThreshold = true ∧
      q.successThreshold = 3 ∧ s.quiet "x" waiting = true ∧
      s.now + q.timeout ≤ (s.play waiting).now ∧
      (∀ call ∈ first ++ [c], p.merge call.own = q) ∧
      (s.play waiting).undisturbed "x" (first ++ [c]) = true ∧
      (t.grants.enter "x" q).1 = true ∧ ((t.succeed "x" c).circuit "x").phase = .closed ∧
      ((t.succeed "x" c).circuit "x").failures = 0 := by
  let p : Policy := { minimumRequests := 1 }
  let own : Policy.Override := { successThreshold := some 3, timeout := some 50 }
  let first : List Trial := [⟨own, [.pass 5, .begin "y" {}], []⟩, ⟨own, [], [.finish 5 false]⟩]
  let s := (start p (.start ⟨0, {}, .bounded (.empty 8)⟩ 3600 100)).play
    [.begin "x" {}, .begin "x" {}, .begin "x" {}, .finish 0 false, .finish 1 true]
  have opened : (s.circuit "x").phase = .opened := by decide +kernel
  have threshold : Binary64.zero.lt (p.merge own).failureThreshold = true := by decide +kernel
  have waits : s.quiet "x" [.pass 20, .begin "x" {}, .pass 30] = true := by decide +kernel
  have waited : s.now + (p.merge own).timeout ≤
      (s.play [.pass 20, .begin "x" {}, .pass 30]).now := by decide +kernel
  have same : ∀ call ∈ first ++ [⟨own, [], []⟩], p.merge call.own = p.merge own := by
    simp [first]
  have calm : (s.play [.pass 20, .begin "x" {}, .pass 30]).undisturbed "x"
      (first ++ [⟨own, [], []⟩]) = true := by decide +kernel
  obtain ⟨admitted, -, closed⟩ := tripped_recovers (by rw [opened]; decide) threshold
    (by decide) waits waited same calm
  exact ⟨p, p.merge own, own, _, _, first, _, s, _, rfl, rfl, rfl, rfl, rfl, rfl, rfl, rfl, rfl, opened,
    threshold, rfl, waits, waited, same, calm, admitted, closed (by decide)⟩

end Traffic

end GrantCache
