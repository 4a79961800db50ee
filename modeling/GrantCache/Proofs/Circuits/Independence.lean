import GrantCache.Health
import GrantCache.Proofs.ByteOrder
import GrantCache.Proofs.Circuits.Traffic

/-!
# Circuits on their own

What callers do at a breaker is done under names, and what they are told under one name does not depend
on what is done under others. A `Switchboard` is a breaker with the calls under way there; callers tell
their calls apart by ids of their own, so that a step under a name says what it is about without regard
to other names.

Two switchboards that are `Alike` under a name answer every step under it alike and stay so
(`Alike.act`), and a step under another name changes nothing about that (`alike_act_of_ne`). The
circuits that are listed are those of the names under which a call was tried or which were reset
(`Listed.act`).
-/

namespace GrantCache

/-! ## What is seen of a circuit -/

namespace Grants

/-- What a circuit shows of itself; one that was never used is as new. -/
def stats (name : String) (g : Grants) : Json := (g.circuit name).summary name g.host.now

/-- What every circuit that exists shows of itself, in order of name. -/
def allStats (g : Grants) : List Json :=
  g.host.breaker.circuits.map fun c => c.2.summary c.1 g.host.now

/-- The same to whoever knows only the circuit of one name. -/
structure SameAt (name : String) (g g' : Grants) : Prop where
  now : g.host.now = g'.host.now
  defaults : g.host.breaker.defaults = g'.host.breaker.defaults
  circuit : g.circuit name = g'.circuit name

variable {name other : String} {g g' : Grants}

theorem SameAt.policy (h : SameAt name g g') (o : Policy.Override) : g.policy o = g'.policy o :=
  congrArg (Policy.merge · o) h.defaults

theorem SameAt.stats (h : SameAt name g g') : g.stats name = g'.stats name := by
  rw [Grants.stats, Grants.stats, h.circuit, h.now]

/-- A call is let in to alike circuits or refused by both. -/
theorem SameAt.enter (h : SameAt name g g') (p : Policy) :
    (g.enter name p).1 = (g'.enter name p).1 ∧
      SameAt name (g.enter name p).2 (g'.enter name p).2 := by
  have admitted (g : Grants) :
      (g.enter name p).1 = ((g.circuit name).enter name p g.host.now).1 := rfl
  refine ⟨?_, h.now, h.defaults, ?_⟩
  · rw [admitted, admitted, h.circuit, h.now]
  · rw [circuit_enter, circuit_enter, h.circuit, h.now]

theorem SameAt.leave (h : SameAt name g g') (p : Policy) (ok : Bool) :
    SameAt name (g.leave name p ok) (g'.leave name p ok) := by
  refine ⟨h.now, h.defaults, ?_⟩
  rw [circuit_leave, circuit_leave, h.circuit, h.now]

theorem SameAt.reset (h : SameAt name g g') :
    SameAt name (g.resetCircuit name) (g'.resetCircuit name) := by
  refine ⟨h.now, h.defaults, ?_⟩
  rw [circuit_resetCircuit, circuit_resetCircuit]

theorem SameAt.pass (h : SameAt name g g') (ms : Nat) : SameAt name (g.pass ms) (g'.pass ms) :=
  ⟨congrArg (· + ms) h.now, h.defaults, h.circuit⟩

/-- A call whose work touches no circuit has the same answer. -/
theorem SameAt.guarded (h : SameAt name g g') (o : Policy.Override) (outcome : Except String Json) :
    let work (g : Grants) := (some outcome, g)
    (g.guarded name o work).1 = (g'.guarded name o work).1 ∧
      SameAt name (g.guarded name o work).2 (g'.guarded name o work).2 := by
  intro work
  obtain ⟨same, after⟩ := h.enter (g.policy o)
  cases admitted : (g.enter name (g.policy o)).1 with
  | false =>
    rw [guarded_of_refused admitted, guarded_of_refused (by rw [← h.policy, ← same, admitted]),
      ← h.policy]
    exact ⟨rfl, after⟩
  | true =>
    rw [guarded_of_admitted admitted, guarded_of_admitted (by rw [← h.policy, ← same, admitted]),
      ← h.policy]
    exact ⟨rfl, after.leave (g.policy o) _⟩

/-- A call at another circuit is not seen here. -/
theorem sameAt_enter (hn : other ≠ name) (p : Policy) (g : Grants) :
    SameAt name (g.enter other p).2 g := ⟨rfl, rfl, circuit_enter_of_ne hn p g⟩

theorem sameAt_leave (hn : other ≠ name) (p : Policy) (ok : Bool) (g : Grants) :
    SameAt name (g.leave other p ok) g := ⟨rfl, rfl, circuit_leave_of_ne hn p ok g⟩

theorem SameAt.trans {g'' : Grants} (h : SameAt name g g') (h' : SameAt name g' g'') :
    SameAt name g g'' :=
  ⟨h.now.trans h'.now, h.defaults.trans h'.defaults, h.circuit.trans h'.circuit⟩

/-- A call whose work touches nothing is refused, or begins and ends. -/
theorem guarded_cases (name : String) (o : Policy.Override) (outcome : Except String Json)
    (g : Grants) :
    let entered := (g.enter name (g.policy o)).2
    let after := (g.guarded name o fun g => (some outcome, g)).2
    after = entered ∨ after = entered.leave name (g.policy o) outcome.isOk := by
  intro entered after
  cases admitted : (g.enter name (g.policy o)).1 with
  | false => exact .inl (congrArg Prod.snd (guarded_of_refused admitted))
  | true => exact .inr (congrArg Prod.snd (guarded_of_admitted admitted))

/-- A guarded call at another circuit is not seen here. -/
theorem sameAt_guarded (hn : other ≠ name) (o : Policy.Override) (outcome : Except String Json)
    (g : Grants) : SameAt name (g.guarded other o fun g => (some outcome, g)).2 g := by
  have entered := sameAt_enter hn (g.policy o) g
  obtain refused | ended := guarded_cases other o outcome g
  · rw [refused]
    exact entered
  · rw [ended]
    exact (sameAt_leave hn ..).trans entered

end Grants

/-! ## Switchboards -/

/-- A call under way: where, under which id, and with which thresholds it was begun. -/
structure OpenCall where
  name : String
  id : String
  policy : Policy
deriving DecidableEq

/-- Circuits and the calls that are under way. -/
structure Switchboard where
  grants : Grants
  calls : List OpenCall := []

namespace Switchboard

/-- What can be done at a switchboard. -/
inductive Step where
  /-- A call begins, and stays open if it is let in. -/
  | begin (name id : String) (o : Policy.Override)
  | finish (name id : String) (outcome : Except String Json)
  | abandon (name id : String)
  /-- A call begins and ends at once. -/
  | call (name : String) (o : Policy.Override) (outcome : Except String Json)
  | reset (name : String)
  | phase (name : String)
  | stats (name : String)
  | allStats
  | defaults
  | pass (ms : Nat)

/-- What there is to be told of a step. The work of a call has run unless the answer is a refusal. -/
inductive Answer where
  | nothing
  | running
  | ended (result : Except (CallError String) Json)
  | phase (p : Phase)
  | stats (shown : Json)
  | allStats (shown : List Json)
  | defaults (p : Policy)

namespace Step

/-- The name under which a step is done. -/
def name? : Step → Option String
  | begin name .. | finish name .. | abandon name _ | call name .. | reset name | phase name
  | stats name => some name
  | allStats | defaults | pass _ => none

/-- The name under which a step tries a call, or which it resets. -/
def opens? : Step → Option String
  | begin name .. | call name .. | reset name => some name
  | _ => none

/-- Not done under another name. -/
def concerns (name : String) (d : Step) : Bool := d.name?.all (· = name)

end Step

/-- Whether it is the call of an id under a name. -/
def isCall (name id : String) (c : OpenCall) : Bool := c.name = name && c.id = id

/-- What a step answers, and what becomes of circuits and calls. -/
def act (d : Step) (b : Switchboard) : Answer × Switchboard :=
  match d with
  | .begin name id o =>
    let p := b.grants.policy o
    match b.grants.enter name p with
    | (true, grants) => (.running, { grants, calls := b.calls ++ [⟨name, id, p⟩] })
    | (false, grants) => (.ended (.error (.refused name)), { b with grants })
  | .finish name id outcome =>
    match b.calls.find? (isCall name id) with
    | some c =>
      (.ended (outcome.mapError .failed),
        { grants := b.grants.leave name c.policy outcome.isOk
          calls := b.calls.filter (!isCall name id ·) })
    | none => (.nothing, b)
  | .abandon name id => (.nothing, { b with calls := b.calls.filter (!isCall name id ·) })
  | .call name o outcome =>
    let (result, grants) := b.grants.guarded name o fun g => (some outcome, g)
    ((result.map .ended).getD .nothing, { b with grants })
  | .reset name => (.nothing, { b with grants := b.grants.resetCircuit name })
  | .phase name => (.phase (b.grants.circuit name).phase, b)
  | .stats name => (.stats (b.grants.stats name), b)
  | .allStats => (.allStats b.grants.allStats, b)
  | .defaults => (.defaults b.grants.host.breaker.defaults, b)
  | .pass ms => (.nothing, { b with grants := b.grants.pass ms })

/-- A breaker that was never used, with thresholds for calls that set none. -/
def start (p : Policy) (g : Grants) : Switchboard :=
  { grants := { g with host.breaker := { defaults := p } } }

def play (ds : List Step) (b : Switchboard) : Switchboard := ds.foldl (fun b d => (b.act d).2) b

/-- The steps, each with its answer. -/
def transcript : List Step → Switchboard → List (Step × Answer)
  | [], _ => []
  | d :: rest, b => (d, (b.act d).1) :: transcript rest (b.act d).2

/-- What is told under a name. -/
def heard (name : String) (ds : List Step) (b : Switchboard) : List (Step × Answer) :=
  (b.transcript ds).filter fun e => e.1.name? = some name

variable {name : String} {b b' : Switchboard} {d : Step} {ds : List Step}

/-! ## One name at a time -/

/-- The same to whoever knows only what is done under one name. -/
structure Alike (name : String) (b b' : Switchboard) : Prop where
  grants : b.grants.SameAt name b'.grants
  calls : b.calls.filter (·.name = name) = b'.calls.filter (·.name = name)

theorem find?_isCall (id : String) (calls : List OpenCall) :
    calls.find? (isCall name id) = (calls.filter (·.name = name)).find? (isCall name id) := by
  rw [List.find?_filter]
  congr 1
  funext c
  by_cases h : c.name = name <;> simp [isCall, h]

theorem filter_ended (id : String) (calls : List OpenCall) :
    (calls.filter (!isCall name id ·)).filter (·.name = name) =
      (calls.filter (·.name = name)).filter (!isCall name id ·) := List.filter_comm ..

theorem filter_ended_of_ne {other : String} (hn : other ≠ name) (id : String)
    (calls : List OpenCall) :
    (calls.filter (!isCall other id ·)).filter (·.name = name) = calls.filter (·.name = name) := by
  rw [List.filter_filter]
  congr 1
  funext c
  by_cases h : c.name = name
  · simp [isCall, h, Ne.symm hn]
  · simp [h]

/-- A step that is not done under another name has the same answer if it is done under this one. -/
theorem Alike.act (h : Alike name b b') (hd : d.concerns name = true) :
    (d.name? = some name → (b.act d).1 = (b'.act d).1) ∧ Alike name (b.act d).2 (b'.act d).2 := by
  cases d with
  | begin at_ id o =>
    obtain rfl : at_ = name := of_decide_eq_true hd
    -- Both sides let the call in or both refuse it.
    obtain ⟨same, after⟩ := h.grants.enter (b.grants.policy o)
    have policy := h.grants.policy o
    simp only [act, ← policy]
    generalize b.grants.enter at_ (b.grants.policy o) = entered at same after ⊢
    generalize b'.grants.enter at_ (b.grants.policy o) = entered' at same after ⊢
    obtain ⟨admitted, g⟩ := entered
    obtain ⟨admitted', g'⟩ := entered'
    obtain rfl : admitted = admitted' := same
    cases admitted with
    | false => exact ⟨fun _ => rfl, after, h.calls⟩
    | true =>
      refine ⟨fun _ => rfl, after, ?_⟩
      rw [List.filter_append, List.filter_append, h.calls]
  | finish at_ id outcome =>
    obtain rfl : at_ = name := of_decide_eq_true hd
    -- The call is looked for among those under the name, and they are the same.
    have found : b.calls.find? (isCall at_ id) = b'.calls.find? (isCall at_ id) := by
      rw [find?_isCall, find?_isCall id b'.calls, h.calls]
    simp only [act, ← found]
    cases b.calls.find? (isCall at_ id) with
    | none => exact ⟨fun _ => rfl, h⟩
    | some c =>
      refine ⟨fun _ => rfl, h.grants.leave c.policy outcome.isOk, ?_⟩
      rw [filter_ended, filter_ended, h.calls]
  | abandon at_ id =>
    obtain rfl : at_ = name := of_decide_eq_true hd
    refine ⟨fun _ => rfl, h.grants, ?_⟩
    rw [act, act, filter_ended, filter_ended, h.calls]
  | call at_ o outcome =>
    obtain rfl : at_ = name := of_decide_eq_true hd
    obtain ⟨same, after⟩ := h.grants.guarded o outcome
    refine ⟨fun _ => ?_, after, h.calls⟩
    exact congrArg (fun r => (Option.map Answer.ended r).getD .nothing) same
  | reset at_ =>
    obtain rfl : at_ = name := of_decide_eq_true hd
    exact ⟨fun _ => rfl, h.grants.reset, h.calls⟩
  | phase at_ =>
    obtain rfl : at_ = name := of_decide_eq_true hd
    exact ⟨fun _ => congrArg (Answer.phase ∘ Circuit.phase) h.grants.circuit, h⟩
  | stats at_ =>
    obtain rfl : at_ = name := of_decide_eq_true hd
    exact ⟨fun _ => congrArg Answer.stats h.grants.stats, h⟩
  | allStats | defaults => exact ⟨nofun, h⟩
  | pass ms => exact ⟨nofun, h.grants.pass ms, h.calls⟩

/-- A call that begins is under way under its name, unless it is refused. -/
theorem act_begin (name id : String) (o : Policy.Override) (b : Switchboard) :
    ∃ begun : List OpenCall, (∀ c ∈ begun, c.name = name) ∧ (b.act (.begin name id o)).2 =
      ⟨(b.grants.enter name (b.grants.policy o)).2, b.calls ++ begun⟩ := by
  simp only [act]
  generalize b.grants.enter name (b.grants.policy o) = result
  obtain ⟨_ | _, g⟩ := result
  · exact ⟨[], nofun, by rw [List.append_nil]⟩
  · exact ⟨[⟨name, id, b.grants.policy o⟩], by simp, rfl⟩

/-- A step under another name is not noticed. -/
theorem alike_act_of_ne (hd : d.concerns name = false) (b : Switchboard) :
    Alike name (b.act d).2 b := by
  cases d with
  | begin at_ id o =>
    have hn : at_ ≠ name := of_decide_eq_false hd
    obtain ⟨begun, own, after⟩ := b.act_begin at_ id o
    have none : begun.filter (·.name = name) = [] :=
      List.filter_eq_nil_iff.2 fun c hc => by simp [own c hc, hn]
    rw [after]
    refine ⟨Grants.sameAt_enter hn (b.grants.policy o) b.grants, ?_⟩
    rw [List.filter_append, none, List.append_nil]
  | finish at_ id outcome =>
    have hn : at_ ≠ name := of_decide_eq_false hd
    simp only [act]
    cases b.calls.find? (isCall at_ id) with
    | none => exact ⟨⟨rfl, rfl, rfl⟩, rfl⟩
    | some c => exact ⟨Grants.sameAt_leave hn .., filter_ended_of_ne hn id b.calls⟩
  | abandon at_ id =>
    have hn : at_ ≠ name := of_decide_eq_false hd
    exact ⟨⟨rfl, rfl, rfl⟩, filter_ended_of_ne hn id b.calls⟩
  | call at_ o outcome =>
    have hn : at_ ≠ name := of_decide_eq_false hd
    exact ⟨Grants.sameAt_guarded hn o outcome b.grants, rfl⟩
  | reset at_ =>
    have hn : at_ ≠ name := of_decide_eq_false hd
    exact ⟨⟨rfl, rfl, Grants.circuit_resetCircuit_of_ne hn b.grants⟩, rfl⟩
  | phase | stats => exact ⟨⟨rfl, rfl, rfl⟩, rfl⟩
  | allStats | defaults | pass => cases hd

theorem Alike.trans {b'' : Switchboard} (h : Alike name b b') (h' : Alike name b' b'') :
    Alike name b b'' := ⟨h.grants.trans h'.grants, h.calls.trans h'.calls⟩

theorem heard_cons (name : String) (d : Step) (rest : List Step) (b : Switchboard) :
    b.heard name (d :: rest) =
      (if d.name? = some name then [(d, (b.act d).1)] else []) ++ (b.act d).2.heard name rest := by
  rw [heard, transcript, List.filter_cons, heard]
  by_cases own : d.name? = some name <;> simp [own]

/-- Under a name the same is told when all steps under other names are left out. -/
theorem Alike.heard (h : Alike name b b') (ds : List Step) :
    b.heard name ds = b'.heard name (ds.filter (·.concerns name)) := by
  induction ds generalizing b b' with
  | nil => rfl
  | cons d rest ih =>
    cases hd : d.concerns name with
    | true =>
      obtain ⟨same, after⟩ := h.act hd
      rw [List.filter_cons_of_pos hd, heard_cons, heard_cons, ih after]
      by_cases own : d.name? = some name
      · rw [same own]
      · rw [if_neg own, if_neg own]
    | false =>
      have other : d.name? ≠ some name := fun own => by simp [Step.concerns, own] at hd
      rw [List.filter_cons_of_neg (by simp [hd]), heard_cons, if_neg other, List.nil_append]
      exact ih ((alike_act_of_ne hd b).trans h)

/-! ## Which circuits are listed -/

/-- The circuits are listed in order of name, and they are those of some names; calls are under way
only under these. -/
structure Listed (names : String → Prop) (b : Switchboard) : Prop where
  sorted : b.grants.host.breaker.circuits.Sorted
  keys : ∀ n, n ∈ b.grants.host.breaker.circuits.keys ↔ names n
  calls : ∀ c ∈ b.calls, names c.name

variable {names : String → Prop}

/-- A circuit is put in its place, and a call may be under way there from then on. -/
theorem Listed.put (h : Listed names b) (grants : Grants) {c : Circuit}
    (hg : grants.host.breaker = b.grants.host.breaker.put name c) {calls : List OpenCall}
    (hc : ∀ call ∈ calls, call ∈ b.calls ∨ call.name = name) :
    Listed (fun n => names n ∨ some name = some n) ⟨grants, calls⟩ := by
  refine ⟨?_, fun n => ?_, fun call hm => ?_⟩
  · rw [hg]
    exact h.sorted.insert name c
  · rw [hg, Breaker.put, Catalog.mem_keys_insert, h.keys, Option.some.injEq, eq_comm, or_comm]
  · exact (hc call hm).imp (h.calls call) fun own => congrArg some own.symm

theorem Listed.congr {names' : String → Prop} (h : Listed names b) (same : ∀ n, names n ↔ names' n) :
    Listed names' b :=
  ⟨h.sorted, fun n => (h.keys n).trans (same n), fun c hc => (same c.name).1 (h.calls c hc)⟩

/-- Nothing is listed anew where the circuits stay and no call is begun. -/
theorem Listed.keep (h : Listed names b) {grants : Grants} {calls : List OpenCall}
    (hg : grants.host.breaker = b.grants.host.breaker) (hc : ∀ c ∈ calls, c ∈ b.calls) :
    Listed (fun n => names n ∨ none = some n) ⟨grants, calls⟩ := by
  refine ⟨by rw [hg]; exact h.sorted, fun n => ?_, fun c hm => .inl (h.calls c (hc c hm))⟩
  rw [hg, h.keys]
  simp

/-- A step lists the circuit of the name under which it tries a call, or which it resets, and no
other. -/
theorem Listed.act (h : Listed names b) (d : Step) :
    Listed (fun n => names n ∨ d.opens? = some n) (b.act d).2 := by
  cases d with
  | begin name id o =>
    obtain ⟨begun, own, after⟩ := b.act_begin name id o
    rw [after]
    exact h.put _ rfl fun c hc => (List.mem_append.1 hc).imp_right (own c)
  | finish name id outcome =>
    simp only [Switchboard.act]
    cases found : b.calls.find? (isCall name id) with
    | none => exact h.keep rfl fun _ hm => hm
    | some c =>
      -- The call was begun under the name, so its circuit is listed already.
      have own : c.name = name :=
        of_decide_eq_true (Bool.and_eq_true_iff.1 (List.find?_some (p := isCall name id) found)).1
      have known : names name := own ▸ h.calls c (List.mem_of_find?_eq_some found)
      refine (h.put (b.grants.leave name c.policy outcome.isOk) rfl fun _ hm =>
        .inl (List.mem_of_mem_filter hm)).congr fun n => ?_
      constructor
      · rintro (hn | hn)
        · exact .inl hn
        · exact .inl (Option.some.inj hn ▸ known)
      · rintro (hn | hn)
        · exact .inl hn
        · cases hn
  | abandon name id => exact h.keep rfl fun _ => List.mem_of_mem_filter
  | call name o outcome =>
    have entered : Listed _ ⟨(b.grants.enter name (b.grants.policy o)).2, b.calls⟩ :=
      h.put _ rfl fun _ => .inl
    simp only [Switchboard.act]
    obtain refused | ended := Grants.guarded_cases name o outcome b.grants
    · rw [refused]
      exact entered
    · rw [ended]
      refine (entered.put _ rfl fun _ => .inl).congr fun n => ?_
      simp [Step.opens?]
  | reset name => exact h.put _ rfl fun _ => .inl
  | phase | stats | allStats | defaults | pass => exact h.keep rfl fun _ => id

/-- What is shown of all circuits is what each shows by itself. -/
theorem Listed.allStats (h : Listed names b) :
    b.grants.allStats = b.grants.host.breaker.circuits.keys.map (b.grants.stats ·) := by
  rw [Grants.allStats, Catalog.keys, List.map_map]
  refine List.map_congr_left fun e he => ?_
  have distinct : b.grants.host.breaker.circuits.keys.Nodup :=
    List.pairwise_map.2 (h.sorted.imp String.ne_of_lt)
  have own : b.grants.circuit e.1 = e.2 := by
    rw [Grants.circuit, Breaker.circuit, Catalog.find?_of_mem distinct he, Option.getD_some]
  rw [Function.comp, Grants.stats, own]

/-! ## The thresholds of calls that set none -/

theorem defaults_act (d : Step) (b : Switchboard) :
    (b.act d).2.grants.host.breaker.defaults = b.grants.host.breaker.defaults := by
  cases d with
  | begin name id o =>
    obtain ⟨_, _, after⟩ := b.act_begin name id o
    rw [after]
    rfl
  | finish name id outcome =>
    simp only [act]
    cases b.calls.find? (isCall name id) <;> rfl
  | call name o outcome =>
    simp only [act]
    obtain refused | ended := Grants.guarded_cases name o outcome b.grants
    · rw [refused]
      rfl
    · rw [ended]
      rfl
  | abandon | reset | phase | stats | allStats | defaults | pass => rfl

/-- The default thresholds never change. -/
theorem defaults_play (ds : List Step) (b : Switchboard) :
    (b.play ds).grants.host.breaker.defaults = b.grants.host.breaker.defaults := by
  induction ds generalizing b with
  | nil => rfl
  | cons d rest ih => exact (ih _).trans (defaults_act d b)

end Switchboard

end GrantCache
