import GrantCache.Call
import GrantCache.Proofs.Circuits.Life
import GrantCache.Proofs.Grants.Live

/-!
# Calls at a breaker

Calls are begun under names, each with the thresholds that it sets for itself. One that is admitted is
under way until it ends or is given up, while other calls begin and end, circuits are reset and time
passes, in any order (`Traffic.play`). What happens at circuits is recorded, and what is recorded under
a name is the life of the circuit of that name, whatever happens under other names
(`Traffic.life_play`).
-/

namespace GrantCache

open Circuit (Happens Life)

/-! ## Circuits of a cache of grants -/

namespace Grants

def circuit (name : String) (g : Grants) : Circuit := g.host.breaker.circuit name

variable {name other : String}

theorem circuit_enter (name : String) (p : Policy) (g : Grants) :
    (g.enter name p).2.circuit name = ((g.circuit name).enter name p g.host.now).2.1 :=
  Breaker.circuit_put_self ..

/-- A call that asks to be let in is a deed at its circuit. -/
theorem happens_enter (name : String) (p : Policy) (g : Grants) :
    Happens (.enter p (g.enter name p).1) g.host.now (g.circuit name)
      ((g.enter name p).2.circuit name) := by
  have step := Circuit.happens_enter name p g.host.now (g.circuit name)
  rw [circuit_enter]
  exact step

/-- A call that asks at one circuit leaves the others as they are. -/
theorem circuit_enter_of_ne (h : name ≠ other) (p : Policy) (g : Grants) :
    (g.enter name p).2.circuit other = g.circuit other := Breaker.circuit_put_of_ne h ..

theorem circuit_leave (name : String) (p : Policy) (ok : Bool) (g : Grants) :
    (g.leave name p ok).circuit name = ((g.circuit name).finish name p g.host.now ok).1 :=
  Breaker.circuit_put_self ..

theorem happens_leave (name : String) (p : Policy) (ok : Bool) (g : Grants) :
    Happens (.finish p ok) g.host.now (g.circuit name) ((g.leave name p ok).circuit name) := by
  rw [circuit_leave]
  exact Circuit.happens_finish name p g.host.now ok (g.circuit name)

theorem circuit_leave_of_ne (h : name ≠ other) (p : Policy) (ok : Bool) (g : Grants) :
    (g.leave name p ok).circuit other = g.circuit other := Breaker.circuit_put_of_ne h ..

theorem circuit_resetCircuit (name : String) (g : Grants) :
    (g.resetCircuit name).circuit name = {} := Breaker.circuit_put_self ..

theorem happens_resetCircuit (name : String) (g : Grants) :
    Happens .reset g.host.now (g.circuit name) ((g.resetCircuit name).circuit name) := by
  rw [circuit_resetCircuit]
  exact Circuit.happens_reset name g.host.now (g.circuit name)

theorem circuit_resetCircuit_of_ne (h : name ≠ other) (g : Grants) :
    (g.resetCircuit name).circuit other = g.circuit other := Breaker.circuit_put_of_ne h ..

/-! ### Guarded calls -/

variable {g : Grants} {p : Policy} {o : Policy.Override} {ε α : Type}
  {work : Grants → Option (Except ε α) × Grants}

/-- A call that is refused leaves every circuit as it is. -/
theorem circuit_enter_of_refused (h : (g.enter name p).1 = false) (other : String) :
    (g.enter name p).2.circuit other = g.circuit other := by
  by_cases same : name = other
  · subst same
    rw [circuit_enter]
    exact Circuit.enter_of_false h
  · exact circuit_enter_of_ne same p g

/-- A call that is refused does no work. -/
theorem guarded_of_refused (h : (g.enter name (g.policy o)).1 = false) :
    g.guarded name o work =
      (some (.error (.refused name)), (g.enter name (g.policy o)).2) := by
  unfold guarded
  rcases entered : g.enter name (g.policy o) with ⟨_ | _, g'⟩
  · simp only [entered]
  · rw [entered] at h
    cases h

/-- A call that is let in does its work, and ends if the work gives an answer. -/
theorem guarded_of_admitted (h : (g.enter name (g.policy o)).1 = true) :
    g.guarded name o work =
      match work (g.enter name (g.policy o)).2 with
      | (none, g') => (none, g')
      | (some answer, g') =>
        (some (answer.mapError .failed), g'.leave name (g.policy o) answer.isOk) := by
  unfold guarded
  rcases entered : g.enter name (g.policy o) with ⟨_ | _, g'⟩
  · rw [entered] at h
    cases h
  · simp only [entered]
    rcases work g' with ⟨_ | _ | _, _⟩ <;> rfl

end Grants

/-! ## Traffic -/

/-- A call that was begun. -/
structure Caller where
  name : String
  policy : Policy
  /-- It was admitted, and has neither ended nor been given up. -/
  running : Bool
deriving DecidableEq

/-- A cache of grants with the calls at its breaker, numbered as they began, and with a record of what
has happened at the circuits. -/
structure Traffic where
  grants : Grants
  callers : List Caller := []
  record : List Mark := []

namespace Traffic

/-- What can happen at a breaker, calls being named by their numbers. -/
inductive Turn where
  | begin (name : String) (o : Policy.Override)
  /-- A call ends, well or not. -/
  | finish (call : Nat) (ok : Bool)
  /-- A call is given up. -/
  | abandon (call : Nat)
  | reset (name : String)
  | pass (ms : Nat)
deriving DecidableEq

/-- A breaker that was never used, with thresholds for calls that set none. -/
def start (p : Policy) (g : Grants) : Traffic :=
  { grants := { g with host.breaker := { defaults := p } } }

def now (t : Traffic) : Nat := t.grants.host.now

def circuit (name : String) (t : Traffic) : Circuit := t.grants.circuit name

/-- What has happened at the circuit of a name. -/
def log (name : String) (t : Traffic) : List Mark := t.record.filter (·.name = name)

/-- The calls under a name that have ended since its counts were zero. -/
def history (name : String) (t : Traffic) : List Mark := Mark.history (t.log name)

/-- Go on with what has become of the cache by something that happened at a circuit. -/
def note (name : String) (d : Deed) (grants : Grants) (t : Traffic) : Traffic :=
  { t with
    grants
    record := t.record ++ [⟨name, d, t.now, t.circuit name, grants.circuit name⟩] }

/-- What becomes of calls, circuits and record in one turn. Only a call that is running can end, and
only once. -/
def turn (d : Turn) (t : Traffic) : Traffic :=
  match d with
  | .begin name o =>
    let p := t.grants.policy o
    let (admitted, grants) := t.grants.enter name p
    { t.note name (.enter p admitted) grants with
      callers := t.callers ++ [⟨name, p, admitted⟩] }
  | .finish i ok =>
    match t.callers[i]? with
    | some ⟨name, p, true⟩ =>
      { t.note name (.finish p ok) (t.grants.leave name p ok) with
        callers := t.callers.set i ⟨name, p, false⟩ }
    | _ => t
  | .abandon i =>
    match t.callers[i]? with
    | some caller => { t with callers := t.callers.set i { caller with running := false } }
    | none => t
  | .reset name => t.note name .reset (t.grants.resetCircuit name)
  | .pass ms => { t with grants := t.grants.pass ms }

def play (turns : List Turn) (t : Traffic) : Traffic := turns.foldl (fun t d => t.turn d) t

theorem turn_finish {t : Traffic} {i : Nat} {name : String} {p : Policy}
    (running : t.callers[i]? = some ⟨name, p, true⟩) (ok : Bool) :
    (t.turn (.finish i ok)).grants = t.grants.leave name p ok := by
  rw [turn, running]
  rfl

/-- A guarded call begins and ends, and what others do meanwhile is part of its work. -/
theorem guarded_play {ε α : Type} {t : Traffic} {name : String} {o : Policy.Override}
    {meanwhile : List Turn} {answer : Except ε α}
    (h : (t.grants.enter name (t.grants.policy o)).1 = true)
    (running : ((t.turn (.begin name o)).play meanwhile).callers[t.callers.length]? =
      some ⟨name, t.grants.policy o, true⟩) :
    (t.grants.guarded name o fun g =>
        (some answer, ({ t.turn (.begin name o) with grants := g }.play meanwhile).grants)) =
      (some (answer.mapError .failed),
        (((t.turn (.begin name o)).play meanwhile).turn
          (.finish t.callers.length answer.isOk)).grants) := by
  rw [Grants.guarded_of_admitted h, turn_finish running]
  rfl

/-! ## What a turn does -/

variable {t t' : Traffic} {name : String} {d : Turn} {turns : List Turn}

/-- What happens at one circuit is recorded under its name and under no other. -/
theorem log_note (name other : String) (d : Deed) (grants : Grants) (t : Traffic) :
    (t.note name d grants).log other = t.log other ++
      if name = other then [⟨name, d, t.now, t.circuit name, grants.circuit name⟩] else [] := by
  rw [log, note, List.filter_append]
  by_cases h : name = other <;> simp [log, h]

/-- Where a call begins, admitted or refused, nothing is added to the calls that have ended. -/
theorem history_begin (at_ : String) (o : Policy.Override) (t : Traffic) (name : String) :
    (t.turn (.begin at_ o)).history name = t.history name := by
  let entered := t.grants.enter at_ (t.grants.policy o)
  have log : (t.turn (.begin at_ o)).log name = _ :=
    log_note at_ name (.enter (t.grants.policy o) entered.1) entered.2 t
  rw [history, log]
  split
  · exact Mark.history_concat_enter rfl _
  · rw [List.append_nil]
    rfl

/-- To give a call up changes nothing at any circuit. -/
theorem turn_abandon (i : Nat) (t : Traffic) :
    (t.turn (.abandon i)).record = t.record ∧ (t.turn (.abandon i)).grants = t.grants := by
  rw [turn]
  split
  · exact ⟨rfl, rfl⟩
  · exact ⟨rfl, rfl⟩

/-- What a turn can do to the circuit of a name: nothing happens there, though time may pass, or
something happens that is recorded. -/
inductive Touches (name : String) : Traffic → Traffic → Prop
  | rest {t t' : Traffic} (ms : Nat) (now : t'.now = t.now + ms) (log : t'.log name = t.log name)
    (circuit : t'.circuit name = t.circuit name) : Touches name t t'
  | mark {t t' : Traffic} {d : Deed} (now : t'.now = t.now)
    (log : t'.log name = t.log name ++ [⟨name, d, t.now, t.circuit name, t'.circuit name⟩])
    (happens : Happens d t.now (t.circuit name) (t'.circuit name)) : Touches name t t'

/-- Something happens at one circuit, and nothing at the others. -/
theorem touches_note {at_ : String} {d : Deed} {grants : Grants}
    (happens : Happens d t.now (t.circuit at_) (grants.circuit at_))
    (others : at_ ≠ name → grants.circuit name = t.circuit name)
    (now : grants.host.now = t.now) (callers : List Caller) :
    Touches name t { t.note at_ d grants with callers } := by
  have log : (t.note at_ d grants).log name = _ := log_note at_ name d grants t
  by_cases h : at_ = name
  · subst h
    rw [if_pos rfl] at log
    exact .mark now log happens
  · rw [if_neg h, List.append_nil] at log
    exact .rest 0 now log (others h)

/-- At every circuit a turn is a deed that is recorded, or nothing. -/
theorem touches_turn (d : Turn) (t : Traffic) (name : String) : Touches name t (t.turn d) := by
  cases d with
  | begin at_ o =>
    let p := t.grants.policy o
    have happens := Grants.happens_enter at_ p t.grants
    exact touches_note happens (Grants.circuit_enter_of_ne · p t.grants) rfl _
  | finish i ok =>
    rw [turn]
    split
    · rename_i at_ p _
      have happens := Grants.happens_leave at_ p ok t.grants
      exact touches_note happens (Grants.circuit_leave_of_ne · p ok t.grants) rfl _
    · exact .rest 0 rfl rfl rfl
  | abandon i =>
    rw [turn]
    split
    · exact .rest 0 rfl rfl rfl
    · exact .rest 0 rfl rfl rfl
  | reset at_ =>
    have happens := Grants.happens_resetCircuit at_ t.grants
    exact touches_note happens (Grants.circuit_resetCircuit_of_ne · t.grants) rfl t.callers
  | pass ms => exact .rest ms rfl rfl rfl

/-! ## The life of each circuit -/

theorem Touches.life (h : Touches name t t') (life : Life name t.now (t.log name) (t.circuit name)) :
    Life name t'.now (t'.log name) (t'.circuit name) := by
  cases h with
  | rest ms now log circuit =>
    rw [now, log, circuit]
    exact life.wait ms
  | mark now log happens =>
    rw [now, log]
    exact life.mark happens

theorem play_induction {I : Traffic → Prop} (h : I t) (keep : ∀ {t : Traffic} (d), d ∈ turns →
    I t → I (t.turn d)) : I (t.play turns) := by
  induction turns generalizing t with
  | nil => exact h
  | cons d rest ih =>
    exact ih (keep d List.mem_cons_self h) fun d hd => keep d (List.mem_cons_of_mem _ hd)

/-- Whatever calls there are, what is recorded under a name is the life of its circuit. -/
theorem life_play (p : Policy) (g : Grants) (turns : List Turn) (name : String) :
    let t := (start p g).play turns
    Life name t.now (t.log name) (t.circuit name) :=
  play_induction (I := fun t => Life name t.now (t.log name) (t.circuit name)) (.new _)
    fun d _ life => (touches_turn d _ name).life life

/-! ## The thresholds of the calls -/

/-- What holds of the thresholds that calls under a name are begun with, holds of those with which
anything happens there. -/
structure Follows (P : Policy → Prop) (p : Policy) (name : String) (t : Traffic) : Prop where
  defaults : t.grants.host.breaker.defaults = p
  callers : ∀ caller ∈ t.callers, caller.name = name → P caller.policy
  log : ∀ m ∈ t.log name, ∀ q, m.deed.policy? = some q → P q

variable {P : Policy → Prop} {p : Policy}

theorem Follows.note {at_ : String} {d : Deed} {grants : Grants} {callers : List Caller}
    (h : Follows P p name t) (same : grants.host.breaker.defaults = t.grants.host.breaker.defaults)
    (hd : at_ = name → ∀ q, d.policy? = some q → P q)
    (hc : ∀ caller ∈ callers, caller.name = name → P caller.policy) :
    Follows P p name { t.note at_ d grants with callers } := by
  refine ⟨same.trans h.defaults, hc, fun m hm => ?_⟩
  have log : (t.note at_ d grants).log name = _ := log_note at_ name d grants t
  have hm : m ∈ (t.note at_ d grants).log name := hm
  rw [log] at hm
  rcases List.mem_append.1 hm with old | new
  · exact h.log m old
  · split at new
    · obtain rfl := List.mem_singleton.1 new
      exact hd ‹_›
    · cases new

/-- A turn uses the thresholds that its call was begun with. -/
theorem Follows.turn (h : Follows P p name t)
    (hd : ∀ o, d = .begin name o → P (p.merge o)) : Follows P p name (t.turn d) := by
  -- A caller that ends keeps the thresholds it began with.
  have ended {i : Nat} {caller : Caller} (hi : t.callers[i]? = some caller) :
      ∀ other ∈ t.callers.set i { caller with running := false }, other.name = name →
        P other.policy := by
    intro other hm hn
    rcases List.mem_or_eq_of_mem_set hm with old | rfl
    · exact h.callers other old hn
    · exact h.callers caller (List.mem_of_getElem? hi) hn
  cases d with
  | begin at_ o =>
    have own (hn : at_ = name) : P (t.grants.policy o) := by
      subst hn
      rw [Grants.policy, h.defaults]
      exact hd o rfl
    refine h.note rfl (fun hn q hq => ?_) fun caller hm hn => ?_
    · obtain rfl := Option.some.inj hq
      exact own hn
    · rcases List.mem_append.1 hm with old | new
      · exact h.callers caller old hn
      · obtain rfl := List.mem_singleton.1 new
        exact own hn
  | finish i ok =>
    rw [Traffic.turn]
    split
    · rename_i at_ q hi
      refine h.note rfl (fun hn r hr => ?_) (ended hi)
      obtain rfl := Option.some.inj hr
      exact h.callers _ (List.mem_of_getElem? hi) hn
    · exact h
  | abandon i =>
    rw [Traffic.turn]
    split
    · exact ⟨h.defaults, ended ‹_›, h.log⟩
    · exact h
  | reset at_ => exact h.note rfl (fun _ q hq => nomatch hq) h.callers
  | pass ms => exact ⟨h.defaults, h.callers, h.log⟩

/-- All that happens at a circuit happens under thresholds that calls under its name were begun with.
-/
theorem follows_play (g : Grants) (hP : ∀ o, .begin name o ∈ turns → P (p.merge o)) :
    Follows P p name ((start p g).play turns) :=
  play_induction ⟨rfl, nofun, nofun⟩ fun _ hd h => h.turn fun o ho => hP o (ho ▸ hd)

end Traffic

end GrantCache
