import GrantCache.Proofs.Remote.Exchange

/-!
# Requests under the circuit

A request to the remote store is either about nothing, or refused by the circuit, or admitted
(`serve_of_vacuous`, `serve_of_refused`, `serve_of_admitted`). Only an admitted one is sent, and it
comes to exactly one end that the circuit counts, well or not, according to what is heard in time
(`counted_once`). What the circuit does never shows as a fault of the request.
-/

namespace GrantCache.Remote

/-- A request about no keys, no entries or no names. -/
def isVacuous : Request → Bool
  | .getMany keys => keys.isEmpty
  | .setMany entries _ => entries.isEmpty
  | .addMembers _ names | .removeMembers _ names => names.isEmpty
  | _ => false

/-- What is answered without the store. -/
def degradedAnswer : (r : Request) → r.Answer
  | .get _ => none
  | .set .. | .setMany .. => ()
  | .delete _ | .deletePattern _ | .addMembers .. | .removeMembers .. => (0 : Nat)
  | .has _ | .increment _ | .decrement _ | .expire .. => (0 : Int)
  | .ttl _ => (-2 : Int)
  | .getMany keys => List.replicate keys.length none
  | .members _ => []

/-- How many milliseconds a request may take. -/
def allowance (remote : Remote) : Request → Nat
  | .deletePattern _ => 30000
  | _ => remote.commandTimeout

/-- The replies to the request come before its deadline, and this is what they say. -/
def Answers (scene : Scene) (r : Request) (raw : Raw r) : Prop :=
  scene.remote.link.listening = true ∧ ∃ replies t rest,
    Link.InTime (scene.now + scene.remote.allowance r) scene.remote.link.acts scene.now
      replies t rest ∧ Reads r replies raw

/-- The errors of a command itself: there is no connection, the remote side fails, or the time is
up. -/
inductive OwnFault (scene : Scene) (r : Request) : Fault → Prop
  | pool (deaf : scene.remote.link.listening = false) :
    OwnFault scene r (.pool "connection refused")
  | remote (listening : scene.remote.link.listening = true) : OwnFault scene r .remote
  | timeout (listening : scene.remote.link.listening = true) :
    OwnFault scene r (.timeout (.ofMillis (scene.remote.allowance r)))

variable {scene : Scene} {r : Request}

theorem vacuous?_eq (r : Request) :
    vacuous? r = if isVacuous r then some (degradedAnswer r) else none := by
  cases r with
  | getMany keys => cases keys <;> rfl
  | setMany entries ttl => cases entries <;> rfl
  | addMembers key names => cases names <;> rfl
  | removeMembers key names => cases names <;> rfl
  | _ => rfl

theorem limit_eq (remote : Remote) (r : Request) : remote.limit r = remote.allowance r := by
  cases r <;> rfl

/-! ## Reading what was heard -/

theorem decode_failure {text : Option String} {f : Fault} (h : decode text = .error f) :
    f = .serialization := by
  cases text with
  | none => cases h
  | some text =>
    rw [decode] at h
    split at h <;> cases h
    rfl

theorem decode_all_failure {texts : List (Option String)} {f : Fault}
    (h : texts.mapM decode = .error f) : f = .serialization := by
  induction texts with
  | nil => cases h
  | cons text rest ih =>
    rw [List.mapM_cons] at h
    cases first : decode text with
    | error f' =>
      rw [first] at h
      cases h
      exact decode_failure first
    | ok value =>
      rw [first] at h
      cases others : rest.mapM decode with
      | error f' =>
        rw [others] at h
        cases h
        exact ih others
      | ok values =>
        rw [others] at h
        cases h

/-- Only JSON text can be unreadable once the replies were read. -/
theorem interpret_failure {raw : Raw r} {f : Fault} (h : (interpret r raw).1 = .error f) :
    f = .serialization := by
  cases r with
  | get key => exact decode_failure h
  | getMany keys => exact decode_all_failure h
  | _ => cases h

theorem interpret_degraded (r : Request) :
    (interpret r (degraded r)).1 = .ok (degradedAnswer r) := by
  cases r with
  | getMany keys =>
    change (keys.map fun _ => none).mapM decode = .ok (List.replicate keys.length none)
    induction keys with
    | nil => rfl
    | cons key rest ih =>
      rw [List.map_cons, List.mapM_cons, ih]
      rfl
  | _ => rfl

/-! ## On the wire -/

theorem converse_eq_ok_iff {raw : Raw r} :
    (converse (scene.remote.limit r) (talk r) scene).1 = .ok raw ↔ Answers scene r raw := by
  rw [converse, limit_eq, Answers]
  split
  · rename_i listening
    rw [← talk_eq_ok_iff]
    simp only [listening, true_and]
  · rename_i deaf
    simp [deaf]

/-- The error of a command is its own. -/
theorem converse_failure {f : Fault}
    (h : (converse (scene.remote.limit r) (talk r) scene).1 = .error f) : OwnFault scene r f := by
  rw [converse, limit_eq] at h
  split at h
  · rename_i listening
    rcases talk_failure h with rfl | rfl
    · exact .remote listening
    · exact .timeout listening
  · rename_i deaf
    cases h
    exact .pool (by simpa using deaf)

theorem breaker_converse {α : Type} (limit : Nat) (talk : Talk α) (scene : Scene) :
    (converse limit talk scene).2.breaker = scene.breaker := by
  rw [converse]
  split <;> rfl

/-! ## Under the circuit -/

/-- The thresholds for the commands of a scene. -/
def Scene.policy (scene : Scene) : Policy := scene.breaker.defaults.merge scene.remote.overrides

/-- Whether the circuit lets a command in, and the circuits after it was asked. -/
def Scene.enter (scene : Scene) : Bool × Breaker × List Event :=
  scene.breaker.enter circuitName scene.policy scene.now

theorem circuit_enter_of_refused (h : scene.enter.1 = false) (name : String) :
    scene.enter.2.1.circuit name = scene.breaker.circuit name := by
  have same : ((scene.breaker.circuit circuitName).enter circuitName scene.policy scene.now).2.1 =
      scene.breaker.circuit circuitName := Circuit.enter_of_false h
  have put :
      scene.enter.2.1 = scene.breaker.put circuitName (scene.breaker.circuit circuitName) := by
    rw [← same]
    rfl
  rw [put]
  by_cases other : circuitName = name
  · rw [other, Breaker.circuit_put_self]
  · rw [Breaker.circuit_put_of_ne other]

/-- What the circuit is asked before a command is sent. -/
theorem enter_eq {admitted : Bool} (h : scene.enter.1 = admitted) :
    scene.breaker.enter circuitName (scene.breaker.defaults.merge scene.remote.overrides)
      scene.now = (admitted, scene.enter.2) := by
  rw [← h]
  rfl

/-- A command that is refused is not sent. -/
theorem call_of_refused (r : Request) (h : scene.enter.1 = false) :
    ∃ breaker events, call r scene = (.ok (degraded r), { scene with breaker }, events) ∧
      ∀ name, breaker.circuit name = scene.breaker.circuit name := by
  rw [call, enter_eq h]
  exact ⟨_, _, rfl, circuit_enter_of_refused h⟩

/-- A command that is admitted is counted when it has come to its end. -/
theorem call_of_admitted (r : Request) (h : scene.enter.1 = true) :
    ∃ ok : Bool, (call r scene).2.1.breaker =
        (scene.enter.2.1.finish circuitName scene.policy (call r scene).2.1.now ok).1 ∧
      ((ok = true ∧ ∃ raw, Answers scene r raw ∧ (call r scene).1 = .ok raw) ∨
        (ok = false ∧ (∀ raw, ¬Answers scene r raw) ∧
          ∃ f, OwnFault scene r f ∧ (call r scene).1 = .error f)) := by
  let inside : Scene := { scene with breaker := scene.enter.2.1 }
  have breaker := breaker_converse (inside.remote.limit r) (talk r) inside
  have heard (raw : Raw r) : (converse (inside.remote.limit r) (talk r) inside).1 = .ok raw ↔
      Answers scene r raw := converse_eq_ok_iff
  have failure (f : Fault) : (converse (inside.remote.limit r) (talk r) inside).1 = .error f →
      OwnFault inside r f := converse_failure
  rw [call, enter_eq h]
  rcases he : converse (inside.remote.limit r) (talk r) inside with ⟨result, after⟩
  rw [he] at breaker heard failure
  -- What goes over the wire does not touch the circuits.
  have same : after.breaker = scene.enter.2.1 := breaker
  simp only [inside] at he
  simp only [he]
  cases result with
  | ok raw =>
    refine ⟨true, ?_, Or.inl ⟨rfl, raw, (heard raw).1 rfl, rfl⟩⟩
    rw [← same]
    rfl
  | error f =>
    refine ⟨false, ?_, Or.inr ⟨rfl, fun raw answers => ?_, f, ?_, rfl⟩⟩
    · rw [← same]
      rfl
    · cases (heard raw).2 answers
    · cases failure f rfl with
      | pool deaf => exact .pool deaf
      | remote listening => exact .remote listening
      | timeout listening => exact .timeout listening

/-! ## Requests -/

/-- What was read is the answer, unless it holds text that is no JSON. -/
def Told (r : Request) (raw : Raw r) (response : Response r.Answer) : Prop :=
  (∃ answer, (interpret r raw).1 = .ok answer ∧ response = .ok answer) ∨
    ((interpret r raw).1 = .error .serialization ∧ response = .fault .serialization)

/-- A request about something is a call, and what was read is told. -/
theorem serve_of_sent (scene : Scene) (h : isVacuous r = false) :
    (serve scene r).state = (call r scene).2.1 ∧
      (∀ raw, (call r scene).1 = .ok raw → Told r raw (serve scene r).response) ∧
      ∀ f, (call r scene).1 = .error f → (serve scene r).response = .fault f := by
  have sent : vacuous? r = none := by
    rw [vacuous?_eq, h]
    rfl
  rw [serve, sent]
  rcases call r scene with ⟨⟨f⟩ | ⟨raw⟩, after, events⟩
  · refine ⟨rfl, ?_, ?_⟩
    · intro raw none
      cases none
    · intro f' same
      cases same
      rfl
  · refine ⟨?_, ?_, ?_⟩
    · simp only
      split <;> rfl
    · intro raw' same
      cases same
      simp only
      split
      · rename_i answer reads he
        exact Or.inl ⟨answer, congrArg Prod.fst he, rfl⟩
      · rename_i f reads he
        have none : (interpret r raw).1 = .error f := congrArg Prod.fst he
        obtain rfl := interpret_failure none
        exact Or.inr ⟨none, rfl⟩
    · intro f none
      cases none

theorem serve_of_vacuous (scene : Scene) (h : isVacuous r = true) :
    (serve scene r).state = scene ∧ (serve scene r).response = .ok (degradedAnswer r) := by
  have nothing : vacuous? r = some (degradedAnswer r) := by
    rw [vacuous?_eq, h]
    rfl
  rw [serve, nothing]
  exact ⟨rfl, rfl⟩

theorem serve_of_refused (hv : isVacuous r = false) (h : scene.enter.1 = false) :
    (serve scene r).response = .ok (degradedAnswer r) ∧
      (serve scene r).state.remote = scene.remote ∧ (serve scene r).state.now = scene.now ∧
      ∀ name, (serve scene r).state.breaker.circuit name = scene.breaker.circuit name := by
  obtain ⟨state, told, -⟩ := serve_of_sent scene hv
  obtain ⟨breaker, events, called, same⟩ := call_of_refused r h
  rw [called] at state told
  rw [state]
  refine ⟨?_, rfl, rfl, same⟩
  rcases told _ rfl with ⟨answer, read, response⟩ | ⟨read, -⟩
  · rw [interpret_degraded] at read
    obtain rfl := Except.ok.inj read
    exact response
  · rw [interpret_degraded] at read
    cases read

theorem serve_of_admitted (hv : isVacuous r = false) (h : scene.enter.1 = true) :
    ∃ ok : Bool, (serve scene r).state.breaker =
        (scene.enter.2.1.finish circuitName scene.policy (serve scene r).state.now ok).1 ∧
      ((ok = true ∧ ∃ raw, Answers scene r raw ∧ Told r raw (serve scene r).response) ∨
        (ok = false ∧ (∀ raw, ¬Answers scene r raw) ∧
          ∃ f, OwnFault scene r f ∧ (serve scene r).response = .fault f)) := by
  obtain ⟨state, told, failed⟩ := serve_of_sent scene hv
  obtain ⟨ok, counted, ended⟩ := call_of_admitted r h
  rw [state]
  refine ⟨ok, counted, ended.imp ?_ ?_⟩
  · rintro ⟨rfl, raw, answers, called⟩
    exact ⟨rfl, raw, answers, told raw called⟩
  · rintro ⟨rfl, none, f, own, called⟩
    exact ⟨rfl, none, f, own, failed f called⟩

theorem response_ne_circuitOpen (scene : Scene) (r : Request) :
    (serve scene r).response ≠ .fault .circuitOpen := by
  intro surfaced
  cases hv : isVacuous r with
  | true => cases (serve_of_vacuous scene hv).2.symm.trans surfaced
  | false =>
    cases he : scene.enter.1 with
    | false => cases (serve_of_refused hv he).1.symm.trans surfaced
    | true =>
      obtain ⟨ok, -, ⟨-, raw, -, told⟩ | ⟨-, -, f, own, failed⟩⟩ := serve_of_admitted hv he
      · rcases told with ⟨answer, -, response⟩ | ⟨-, response⟩
        · cases response.symm.trans surfaced
        · cases response.symm.trans surfaced
      · cases Response.fault.inj (failed.symm.trans surfaced)
        cases own

theorem breaker_isAvailable (scene : Scene) : (isAvailable scene).2.breaker = scene.breaker := by
  rw [isAvailable]
  split
  · rfl
  · exact breaker_converse ..

/-- That the circuit refused a command is never told, and asking for a sign of life is never
counted. A request about nothing changes nothing. A command that is refused is not sent, counts for
nothing and has its degraded answer. One that is admitted is counted once: as a success if its
replies come before its deadline and can be read, whatever they hold, and as a failure otherwise,
with an error of its own. -/
theorem counted_once (scene : Scene) (r : Request) :
    let served := serve scene r
    served.response ≠ .fault .circuitOpen ∧
      (isAvailable scene).2.breaker = scene.breaker ∧
      (isVacuous r = true → served.state = scene ∧ served.response = .ok (degradedAnswer r)) ∧
      (isVacuous r = false → scene.enter.1 = false →
        served.response = .ok (degradedAnswer r) ∧ served.state.remote = scene.remote ∧
          served.state.now = scene.now ∧
          ∀ name, served.state.breaker.circuit name = scene.breaker.circuit name) ∧
      (isVacuous r = false → scene.enter.1 = true →
        ∃ ok : Bool, served.state.breaker =
            (scene.enter.2.1.finish circuitName scene.policy served.state.now ok).1 ∧
          ((ok = true ∧ ∃ raw, Answers scene r raw ∧ Told r raw served.response) ∨
            (ok = false ∧ (∀ raw, ¬Answers scene r raw) ∧
              ∃ f, OwnFault scene r f ∧ served.response = .fault f))) :=
  ⟨response_ne_circuitOpen scene r, breaker_isAvailable scene, serve_of_vacuous scene,
    serve_of_refused, serve_of_admitted⟩

/-- Text that is no JSON is a fault for the caller and a success for the circuit. -/
theorem counted_once_for_broken_text :
    let scene : Scene := ⟨0, {}, { link := { acts := [.delay 5 (.reply (.bulk "\x7b"))] } }⟩
    let served := serve scene (.get "key")
    served.response = .fault .serialization ∧
      served.state.breaker = (scene.enter.2.1.finish circuitName scene.policy 5 true).1 := by
  intro scene served
  obtain ⟨-, -, -, -, admitted⟩ := counted_once scene (.get "key")
  have heard : Answers scene (.get "key") (some "\x7b") :=
    ⟨rfl, [.bulk "\x7b"], 5, [], .next (.delay (by decide) .reply) .none, _, rfl, rfl, rfl⟩
  obtain ⟨ok, counted, ⟨rfl, -⟩ | ⟨-, none, -⟩⟩ := admitted (by rfl) (by rfl)
  · exact ⟨by rfl, counted⟩
  · exact absurd heard (none _)

end GrantCache.Remote
