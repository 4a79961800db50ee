import GrantCache.Proofs.Circuits.Traffic

/-!
# What is reported of circuits

Whatever happens at a circuit is reported by the events of one move, to the phase in which it leaves the
circuit (`Circuit.events_finish`, `Circuit.events_enter`); a refusal and a reset report themselves. So
the readings and counts that are on record under a name say what has become of its circuit
(`metrics_of_record`): the gauge shows its phase, the transitions are counted as often as calls made
them, and so are the refusals.
-/

namespace GrantCache

open Event (reading? total)

/-! ## One mark -/

namespace Mark

/-- A call moves the circuit to a phase from another one. -/
def movesTo (target : Phase) (m : Mark) : Bool :=
  m.deed ≠ .reset && (m.before.phase ≠ target && m.after.phase = target)

/-- A call is refused. -/
def refused (m : Mark) : Bool := m.deed matches .enter _ false

/-- The phase is written down: by a reset, or because it has changed. -/
def showsPhase (m : Mark) : Bool := m.deed = .reset || m.before.phase ≠ m.after.phase

/-- What events say of circuits is what a mark is about. -/
structure Told (m : Mark) (events : List Event) : Prop where
  reading : ∀ name, reading? (.circuitPhase name) events =
    if m.name = name ∧ m.showsPhase then some m.after.phase.reading else none
  transitions : ∀ name target, total (.transitions name target) events =
    if m.name = name ∧ m.movesTo target then 1 else 0
  rejections : ∀ name, total (.rejections name) events =
    if m.name = name ∧ m.refused then 1 else 0

end Mark

namespace Circuit

variable {name : String} {p : Policy} {now : Nat} {c before after : Circuit} {d : Deed}

/-- A call that is not refused is told of by the move to the phase in which it leaves the circuit. -/
theorem told_move (call : d ≠ .reset) (runs : Mark.refused ⟨name, d, now, before, after⟩ = false)
    (same : c.phase = before.phase) :
    Mark.Told ⟨name, d, now, before, after⟩ (c.move name after.phase).2 := by
  have call : (d = .reset) = False := eq_false call
  by_cases stays : c.phase = after.phase
  -- A move to the same phase is silent.
  · have quiet : (c.move name after.phase).2 = [] := by rw [move, if_pos stays]
    have still : before.phase = after.phase := same.symm.trans stays
    rw [quiet]
    refine ⟨fun other => ?_, fun other target => ?_, fun other => ?_⟩
    · simp [reading?, Mark.showsPhase, call, still]
    · simp [total, Mark.movesTo, still]
    · simp [total, runs]
  · have moves : (c.move name after.phase).2 =
        [.count (.transitions name after.phase) 1,
          .gauge (.circuitPhase name) after.phase.reading,
          .notice (movedNotice name c after.phase)] := by rw [move, if_neg stays]
    have leaves : before.phase ≠ after.phase := fun still => stays (same.trans still)
    rw [moves]
    refine ⟨fun other => ?_, fun other target => ?_, fun other => ?_⟩
    · simp [reading?, Mark.showsPhase, leaves]
    · by_cases there : after.phase = target
      · subst there
        simp [total, Mark.movesTo, call, leaves]
      · simp [total, Mark.movesTo, there]
    · simp [total, runs]

/-- A call that is let in reports the move to the phase in which it leaves the circuit. -/
theorem events_enter (h : (c.enter name p now).1 = true) :
    (c.enter name p now).2.2 = (c.move name (c.enter name p now).2.1.phase).2 := by
  by_cases opened : c.phase = .opened
  · cases rested : c.rested p now with
    | false => simp [enter, opened, rested] at h
    | true => simp [enter, opened, rested]
  · simp [enter, opened, move]

/-- A call that ends reports the move to the phase in which it leaves the circuit. -/
theorem events_finish (name : String) (p : Policy) (now : Nat) (ok : Bool) (c : Circuit) :
    ∃ counted : Circuit, counted.phase = c.phase ∧
      (c.finish name p now ok).2 = (counted.move name (c.finish name p now ok).1.phase).2 := by
  cases h : c.phase with
  | closed =>
    have ended : c.finish name p now ok = (c.count ok).tripIfNeeded name p now := by
      cases ok <;> simp [finish, succeed, fail, h, count]
    rw [ended, tripIfNeeded]
    split
    · exact ⟨{ c.count ok with lastFailure := some now }, h, by rw [move_phase]⟩
    · exact ⟨c, h, by simp [move]⟩
  | halfOpen =>
    cases ok with
    | true =>
      by_cases enough : p.successThreshold ≤ c.streak + 1
      · exact ⟨c.count true, h, by simp [finish, succeed, h, enough, count]⟩
      · exact ⟨c, h, by simp [finish, succeed, h, enough, move]⟩
    | false =>
      refine ⟨{ c.count false with lastFailure := some now }, h, ?_⟩
      simp [finish, fail, h, count]
  | opened =>
    cases ok with
    | true => exact ⟨c, h, by simp [finish, succeed, h, move]⟩
    | false => exact ⟨c, h, by simp [finish, fail, h, move]⟩

theorem told_enter (name : String) (p : Policy) (now : Nat) (c : Circuit) :
    Mark.Told ⟨name, .enter p (c.enter name p now).1, now, c, (c.enter name p now).2.1⟩
      (c.enter name p now).2.2 := by
  cases admitted : (c.enter name p now).1 with
  | true =>
    rw [events_enter admitted]
    exact told_move nofun rfl rfl
  | false =>
    obtain ⟨opened, tired⟩ := (enter_eq_false_iff name p now c).1 admitted
    have told : (c.enter name p now).2.2 = [.count (.rejections name) 1] := by
      simp [enter, opened, tired]
    rw [told, enter_of_false admitted]
    refine ⟨fun other => ?_, fun other target => ?_, fun other => ?_⟩
    · simp [reading?, Mark.showsPhase]
    · simp [total, Mark.movesTo]
    · simp [total, Mark.refused]

theorem told_finish (name : String) (p : Policy) (now : Nat) (ok : Bool) (c : Circuit) :
    Mark.Told ⟨name, .finish p ok, now, c, (c.finish name p now ok).1⟩
      (c.finish name p now ok).2 := by
  obtain ⟨counted, same, told⟩ := events_finish name p now ok c
  rw [told]
  exact told_move nofun rfl same

theorem told_reset (name : String) (now : Nat) (c : Circuit) :
    Mark.Told ⟨name, .reset, now, c, (c.reset name).1⟩ (c.reset name).2 := by
  refine ⟨fun other => ?_, fun other target => ?_, fun other => ?_⟩
  · simp [reset, reading?, Mark.showsPhase]
  · simp [reset, total, Mark.movesTo]
  · simp [reset, total, Mark.refused]

end Circuit

namespace Grants

/-- What happens at a circuit goes on record with the events that tell of it. -/
def Notes (name : String) (d : Deed) (g g' : Grants) : Prop :=
  ∃ events, g'.journal = g.journal ++ events ∧
    Mark.Told ⟨name, d, g.host.now, g.circuit name, g'.circuit name⟩ events

theorem notes_enter (name : String) (p : Policy) (g : Grants) :
    g.Notes name (.enter p (g.enter name p).1) (g.enter name p).2 := by
  refine ⟨_, rfl, ?_⟩
  rw [circuit_enter]
  exact Circuit.told_enter name p g.host.now (g.circuit name)

theorem notes_leave (name : String) (p : Policy) (ok : Bool) (g : Grants) :
    g.Notes name (.finish p ok) (g.leave name p ok) := by
  refine ⟨_, rfl, ?_⟩
  rw [circuit_leave]
  exact Circuit.told_finish name p g.host.now ok (g.circuit name)

theorem notes_resetCircuit (name : String) (g : Grants) :
    g.Notes name .reset (g.resetCircuit name) := by
  refine ⟨_, rfl, ?_⟩
  rw [circuit_resetCircuit]
  exact Circuit.told_reset name g.host.now (g.circuit name)

end Grants

/-! ## A run -/

namespace Traffic

variable {t : Traffic}

/-- What is on record of the circuits says what has become of each: the gauge, or its zero as long as it
was never written, shows the phase, and transitions and refusals are counted as often as there were
any. -/
structure Reported (t : Traffic) : Prop where
  reading : ∀ name, (reading? (.circuitPhase name) t.grants.journal).getD Phase.closed.reading =
    (t.circuit name).phase.reading
  transitions : ∀ name target,
    total (.transitions name target) t.grants.journal = (t.log name).countP (Mark.movesTo target)
  rejections : ∀ name, total (.rejections name) t.grants.journal = (t.log name).countP Mark.refused

/-- Something happens at one circuit and is told. -/
theorem Reported.note (h : t.Reported) {at_ : String} {d : Deed} {grants : Grants}
    (notes : t.grants.Notes at_ d grants)
    (others : ∀ name, at_ ≠ name → grants.circuit name = t.circuit name) (callers : List Caller) :
    Reported { t.note at_ d grants with callers } := by
  have log (name : String) : ({ t.note at_ d grants with callers } : Traffic).log name = _ :=
    log_note at_ name d grants t
  obtain ⟨events, journal,
    (told : Mark.Told ⟨at_, d, t.now, t.circuit at_, grants.circuit at_⟩ events)⟩ := notes
  refine ⟨fun name => ?_, fun name target => ?_, fun name => ?_⟩
  · show (reading? _ grants.journal).getD _ = (grants.circuit name).phase.reading
    rw [journal, Event.reading?_append, told.reading]
    by_cases here : at_ = name
    · subst here
      cases shown : Mark.showsPhase ⟨at_, d, t.now, t.circuit at_, grants.circuit at_⟩ with
      -- A deed that shows no phase leaves the circuit in the phase in which it was.
      | true => simp
      | false =>
        simp only [Mark.showsPhase, Bool.or_eq_false_iff, decide_eq_false_iff_not, ne_eq,
          not_not] at shown
        simp [h.reading, shown.2]
    · simp [here, h.reading, others name here]
  · show total _ grants.journal = _
    rw [journal, Event.total_append, told.transitions, h.transitions, log, List.countP_append]
    by_cases here : at_ = name
    · subst here
      simp [List.countP_cons]
    · simp [here]
  · show total _ grants.journal = _
    rw [journal, Event.total_append, told.rejections, h.rejections, log, List.countP_append]
    by_cases here : at_ = name
    · subst here
      simp [List.countP_cons]
    · simp [here]

theorem Reported.turn (h : t.Reported) (d : Turn) : (t.turn d).Reported := by
  cases d with
  | begin at_ o =>
    exact h.note (Grants.notes_enter at_ (t.grants.policy o) t.grants)
      (fun _ other => Grants.circuit_enter_of_ne other ..) _
  | finish i ok =>
    rw [Traffic.turn]
    split
    · rename_i at_ p _
      exact h.note (Grants.notes_leave at_ p ok t.grants)
        (fun _ other => Grants.circuit_leave_of_ne other ..) _
    · exact h
  -- Whoever abandons a call writes nothing and counts nothing.
  | abandon i =>
    obtain ⟨record, grants⟩ := turn_abandon i t
    refine ⟨fun name => ?_, fun name target => ?_, fun name => ?_⟩
    · rw [circuit, grants]
      exact h.reading name
    · rw [log, record, grants]
      exact h.transitions name target
    · rw [log, record, grants]
      exact h.rejections name
  | reset at_ =>
    exact h.note (Grants.notes_resetCircuit at_ t.grants)
      (fun _ other => Grants.circuit_resetCircuit_of_ne other _) t.callers
  | pass ms => exact ⟨h.reading, h.transitions, h.rejections⟩

end Traffic

end GrantCache
