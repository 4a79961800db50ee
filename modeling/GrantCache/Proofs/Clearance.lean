import GrantCache.Proofs.Grants.Steps
import GrantCache.Proofs.Key
import GrantCache.Proofs.Removal

/-!
# What it means that a user was cleared

A clearing is thorough if both entries of the user were removed, and the user from the set of each
code that the store had told (`Plan.Thorough`), where a removal may have been refused by an open
circuit. A clearing makes all these removals (`Takes.clear_inv`) and reports any that fails, so one
that reports nothing was thorough, whatever others do in the meantime (`Takes.thorough`). An
invalidation counts those that report nothing (`Counts`). Deletions and invalidations are put
together in `cleared_as_reported`.
-/

namespace GrantCache

/-- The response that a plan learns as this answer. -/
def Response.ofExcept {α : Type} : Except Fault α → Response α
  | .ok a => .ok a
  | .error f => .fault f

namespace Plan

open Grants
open Program (Every)

namespace Step

/-- The step is a request to the store. -/
def Asks (s : Step) (r : Request) : Prop := s.effect = .ask r

/-- The store told which codes are cached under a key. -/
def Reads (s : Step) (key : String) (codes : List String) : Prop :=
  s.Asks (.get key) ∧ ∃ value, (s.before.host.serve (.get key)).response = .ok (some value) ∧
    value.texts? = some codes

/-- A removal that was tried and failed. -/
def FailsToRemove (s : Step) : Prop :=
  ∃ r f, s.Asks r ∧ r.removes = true ∧ (s.before.host.serve r).response = .fault f

/-- A removal that the store executed, or that the circuit refused. -/
def Removes (s : Step) (r : Request) : Prop :=
  s.Asks r ∧ (s.before.host.Executes r ∨ s.before.host.Refuses r)

end Step

/-- The user's entries were asked for and removed, and the user was removed from the set of each
code that the store told. No removal failed. -/
structure Thorough (user : String) (steps : List Step) : Prop where
  asked : ∀ kind : GrantKind, ∃ s ∈ steps, s.Asks (.get (kind.entryKey user))
  entries : ∀ kind : GrantKind, ∃ s ∈ steps, s.Removes (.delete (kind.entryKey user))
  members : ∀ (kind : GrantKind), ∀ s ∈ steps, ∀ codes, s.Reads (kind.entryKey user) codes →
    ∀ code ∈ codes, ∃ t ∈ steps, t.Removes (.removeMembers (kind.indexKey code) [user])
  unfailed : ∀ s ∈ steps, ¬ s.FailsToRemove

variable {others : Grants → Grants → Prop} {g v : Grants} {user : String} {kind : GrantKind}
  {steps : List Step} {s : Step} {r : Request}

/-! ## Single requests -/

theorem response_of_perform {t u : Grants} {answer : Except Fault r.Answer}
    (h : perform (.ask r) t = (some answer, u)) :
    (t.host.serve r).response = .ofExcept answer := by
  have response : (t.ask r).1 = (t.host.serve r).response := rfl
  rw [perform] at h
  rw [← response]
  split at h
  · rename_i a _ asked
    obtain rfl := Option.some.inj (Prod.mk.inj h).1
    exact congrArg Prod.fst asked
  · rename_i f _ asked
    obtain rfl := Option.some.inj (Prod.mk.inj h).1
    exact congrArg Prod.fst asked
  · cases (Prod.mk.inj h).1

/-- A step that is a request, and what comes after it. -/
theorem Takes.ask_bind_inv {α : Type} {f : Except Fault r.Answer → Plan α} {a : α}
    (h : Takes others (ask r >>= f) g steps a v) :
    ∃ t u answer after, steps = ⟨.ask r, t⟩ :: after ∧ Takes others (f answer) u after a v ∧
      (t.host.serve r).response = .ofExcept answer := by
  cases h with
  | perform acted answered rest => exact ⟨_, _, _, _, rfl, rest, response_of_perform answered⟩

theorem Takes.of_done {α : Type} {a b : α} (h : Takes others (.done a) g steps b v) :
    steps = [] ∧ b = a := by
  cases h
  exact ⟨rfl, rfl⟩

/-! ## Looking up -/

/-- An effect that is no request. -/
def Quiet (e : Effect) : Prop := ∀ r, e ≠ .ask r

theorem every_quiet_settle (key : String) : Every Quiet (settle key) :=
  ⟨fun _ => nofun, fun _ => Every.forM fun _ _ => ⟨fun _ => nofun, fun _ => trivial⟩⟩

/-- All requests in these steps ask for the user's entries, and these are the codes told. -/
def Looks (user : String) (codes : GrantKind → List String) (steps : List Step) : Prop :=
  ∀ s ∈ steps, ∀ r, s.Asks r → ∃ kind : GrantKind, r = .get (kind.entryKey user) ∧
    ∀ told, s.Reads (kind.entryKey user) told → codes kind = told

theorem Looks.append {codes : GrantKind → List String} {after : List Step}
    (h : Looks user codes steps) (h' : Looks user codes after) :
    Looks user codes (steps ++ after) := fun s hs =>
  (List.mem_append.1 hs).elim (h s) (h' s)

theorem looks_of_quiet {codes : GrantKind → List String} (h : ∀ s ∈ steps, Quiet s.effect) :
    Looks user codes steps := fun s hs r asks => absurd asks (h s hs r)

/-- A lookup asks for the entry, and the codes that it finds are those that it is told. -/
theorem Takes.read_inv {found : Option (List String)}
    (h : Takes others (read kind user) g steps found v)
    (codes : GrantKind → List String) (same : codes kind = found.getD []) :
    (∃ s ∈ steps, s.Asks (.get (kind.entryKey user))) ∧ Looks user codes steps := by
  obtain ⟨t, u, answer, after, rfl, rest, response⟩ := Takes.ask_bind_inv h
  -- After the request only its outcome is reported.
  have quiet : ∀ s ∈ after, Quiet s.effect := by
    refine rest.every ?_
    have report (e : Event) : Every Quiet (Plan.report e) := ⟨fun _ => nofun, fun _ => trivial⟩
    split
    · trivial
    · split
      · trivial
      · exact (report _).bind fun _ => trivial
    · exact (report _).bind fun _ => trivial
  refine ⟨⟨_, List.mem_cons_self, rfl⟩, ?_⟩
  intro s hs r asks
  rcases List.mem_cons.1 hs with rfl | hs
  · obtain rfl := Effect.ask.inj asks
    refine ⟨kind, rfl, ?_⟩
    rintro told ⟨-, value, tells, texts⟩
    have answered := response.symm.trans tells
    cases answer with
    | error f => cases answered
    | ok answer =>
      obtain rfl := Response.ok.inj answered
      simp only [texts] at rest
      rw [same, rest.of_done.2]
      rfl
  · exact absurd asks (quiet s hs r)

/-! ## Removing -/

/-- All requests are made, and none of them fails if no failure is reported. -/
theorem Takes.attemptAll_inv {rs : List Request} {fault : Option Fault}
    (h : Takes others (attemptAll rs) g steps fault v) :
    steps.map (·.effect) = rs.map .ask ∧ (fault = none → ∀ s ∈ steps, ¬ s.FailsToRemove) := by
  induction rs generalizing g steps fault v with
  | nil =>
    obtain ⟨rfl, rfl⟩ := h.of_done
    exact ⟨rfl, fun _ s hs => absurd hs List.not_mem_nil⟩
  | cons r rest ih =>
    obtain ⟨t, u, answer, after, rfl, further, response⟩ := Takes.ask_bind_inv h
    rw [List.map_cons, List.map_cons, List.forall_mem_cons]
    cases answer with
    | ok a =>
      obtain ⟨effects, unfailed⟩ := ih further
      refine ⟨by rw [effects], fun none => ⟨?_, unfailed none⟩⟩
      rintro ⟨r', f, asks, -, fails⟩
      obtain rfl := Effect.ask.inj asks
      cases response.symm.trans fails
    | error f =>
      -- The failure is reported, whatever becomes of the other requests.
      obtain ⟨other, w, before, last, attempts, ends, rfl⟩ := further.bind_inv
      obtain ⟨rfl, rfl⟩ := ends.of_done
      rw [List.append_nil]
      exact ⟨by rw [(ih attempts).1], nofun⟩

theorem removes_of_mem_removals {roles permissions : List String}
    (h : r ∈ removals user roles permissions) : r.removes = true := by
  rcases mem_removals h with ⟨kind, rfl⟩ | ⟨kind, code, rfl⟩
  · rfl
  · rfl

theorem delete_mem_removals (kind : GrantKind) (roles permissions : List String) :
    .delete (kind.entryKey user) ∈ removals user roles permissions := by
  cases kind <;> simp [removals]

theorem removeMembers_mem_removals {codes : GrantKind → List String} {code : String}
    (h : code ∈ codes kind) :
    .removeMembers (kind.indexKey code) [user] ∈
      removals user (codes .role) (codes .permission) := by
  rw [removals, List.mem_append, List.mem_append, List.mem_map, List.mem_map]
  cases kind with
  | role => exact Or.inl (Or.inr ⟨code, h, rfl⟩)
  | permission => exact Or.inr ⟨code, h, rfl⟩

/-! ## Clearing a user -/

/-- The codes to clear, if these were found. -/
def foundCodes (roles permissions : Option (List String)) : GrantKind → List String
  | .role => roles.getD []
  | .permission => permissions.getD []

/-- A clearing looks the user up and then makes all the removals that follow from it. None of them
fails if no failure is reported. -/
theorem Takes.clear_inv {fault : Option Fault} (h : Takes others (clear user) g steps fault v) :
    ∃ codes looking removing, steps = looking ++ removing ∧
      (∀ kind : GrantKind, ∃ s ∈ looking, s.Asks (.get (kind.entryKey user))) ∧
      Looks user codes looking ∧
      removing.map (·.effect) = (removals user (codes .role) (codes .permission)).map .ask ∧
      (fault = none → ∀ s ∈ removing, ¬ s.FailsToRemove) := by
  obtain ⟨roles, t₁, read₁, _, first, h₁, rfl⟩ := h.bind_inv
  obtain ⟨permissions, t₂, read₂, _, second, h₂, rfl⟩ := h₁.bind_inv
  obtain ⟨_, t₃, settle₁, _, third, h₃, rfl⟩ := h₂.bind_inv
  obtain ⟨_, t₄, settle₂, removing, fourth, h₄, rfl⟩ := h₃.bind_inv
  obtain ⟨effects, unfailed⟩ := h₄.attemptAll_inv
  let codes := foundCodes roles permissions
  -- While it waits for index writes a clearing asks for nothing.
  have settled (kind : GrantKind) (codes : List String) :
      Every Quiet (codes.forM fun code => settle (kind.indexKey code)) :=
    Every.forM fun code _ => every_quiet_settle _
  obtain ⟨⟨s₁, mem₁, asks₁⟩, looks₁⟩ := first.read_inv codes rfl
  obtain ⟨⟨s₂, mem₂, asks₂⟩, looks₂⟩ := second.read_inv codes rfl
  have looks₃ : Looks user codes settle₁ := looks_of_quiet (third.every (settled .role _))
  have looks₄ : Looks user codes settle₂ := looks_of_quiet (fourth.every (settled .permission _))
  refine ⟨codes, read₁ ++ (read₂ ++ (settle₁ ++ settle₂)), removing, ?_, ?_, ?_, effects, unfailed⟩
  · simp only [List.append_assoc]
  · intro kind
    cases kind with
    | role => exact ⟨s₁, List.mem_append_left _ mem₁, asks₁⟩
    | permission => exact ⟨s₂, List.mem_append_right _ (List.mem_append_left _ mem₂), asks₂⟩
  · exact looks₁.append (looks₂.append (looks₃.append looks₄))

/-- A request that was made was answered, well or not. -/
theorem Takes.answered {α : Type} {p : Plan α} {a : α} (h : Takes others p g steps a v)
    (hs : s ∈ steps) (asks : s.Asks r) :
    ∃ answer, (s.before.host.serve r).response = .ofExcept answer := by
  induction h with
  | done a g => cases hs
  | perform acted answered rest ih =>
    rcases List.mem_cons.1 hs with rfl | hs
    · obtain rfl : _ = Effect.ask r := asks
      exact ⟨_, response_of_perform answered⟩
    · exact ih hs

/-- A removal that did not fail was executed, or refused. -/
theorem Takes.removes {α : Type} {p : Plan α} {a : α} (h : Takes others p g steps a v)
    (hs : s ∈ steps) (asks : s.Asks r) (hr : r.removes = true) (works : ¬ s.FailsToRemove) :
    s.Removes r := by
  obtain ⟨answer, response⟩ := h.answered hs asks
  cases answer with
  | ok a => exact ⟨asks, Host.executes_or_refuses hr response⟩
  | error f => exact absurd ⟨r, f, asks, hr, response⟩ works

/-- A clearing that reports no failure was thorough. -/
theorem Takes.thorough (h : Takes others (clear user) g steps none v) : Thorough user steps := by
  obtain ⟨codes, looking, removing, rfl, asked, looks, effects, reported⟩ := h.clear_inv
  have unfailed : ∀ s ∈ looking ++ removing, ¬ s.FailsToRemove := by
    intro s hs fails
    rcases List.mem_append.1 hs with hs | hs
    · -- a lookup is no removal
      obtain ⟨r, f, asks, removes, -⟩ := fails
      obtain ⟨kind, rfl, -⟩ := looks s hs r asks
      cases removes
    · exact reported rfl s hs fails
  have removed {r : Request} (hr : r ∈ removals user (codes .role) (codes .permission)) :
      ∃ s ∈ looking ++ removing, s.Removes r := by
    have effect : Effect.ask r ∈ removing.map (·.effect) := effects ▸ List.mem_map_of_mem hr
    obtain ⟨s, hs, asks⟩ := List.mem_map.1 effect
    have mem : s ∈ looking ++ removing := List.mem_append_right _ hs
    exact ⟨s, mem, h.removes mem asks (removes_of_mem_removals hr) (unfailed s mem)⟩
  refine ⟨fun kind => ?_, fun kind => removed (delete_mem_removals kind _ _), ?_, unfailed⟩
  · obtain ⟨s, hs, asks⟩ := asked kind
    exact ⟨s, List.mem_append_left _ hs, asks⟩
  · intro kind s hs told reads code hc
    rcases List.mem_append.1 hs with hs | hs
    · obtain ⟨kind', same, tells⟩ := looks s hs _ reads.1
      obtain ⟨rfl, -⟩ := GrantKind.entryKey_inj.1 (Request.get.inj same)
      obtain rfl := tells told reads
      exact removed (removeMembers_mem_removals hc)
    · -- no removal looks anything up
      have effect : Effect.ask (.get (kind.entryKey user)) ∈ removing.map (·.effect) :=
        List.mem_map.2 ⟨s, hs, reads.1⟩
      rw [effects] at effect
      obtain ⟨r, hr, same⟩ := List.mem_map.1 effect
      obtain rfl := Effect.ask.inj same
      cases removes_of_mem_removals hr

/-- A deletion that succeeds ends with a clearing that reports no failure. -/
theorem Takes.delete_inv (h : Takes others (delete user) g steps true v) :
    Takes others (clear user) g steps none v := by
  obtain ⟨fault, t, before, after, clears, last, rfl⟩ := h.bind_inv
  cases fault with
  | none =>
    cases last
    rwa [List.append_nil]
  | some f =>
    obtain ⟨_, _, _, _, -, ends, -⟩ := last.bind_inv
    cases ends.of_done.2

/-! ## Counting those who were cleared -/

/-- The number that a wide plan ends with grows by one with each user who was cleared. -/
def Counts (base : Nat) (p : WidePlan Nat) : Prop :=
  ∀ ⦃others : Grants → Grants → Prop⦄ ⦃g v : Grants⦄ ⦃steps : List WideStep⦄ ⦃n : Nat⦄,
    WideTakes others p g steps n v → n = base + cleared steps

theorem cleared_append (before after : List WideStep) :
    cleared (before ++ after) = cleared before + cleared after := by
  rw [cleared, clearings, List.flatMap_append, List.countP_append]
  rfl

theorem cleared_batch (users : List String) (clears : List (Nat × Step))
    (faults : List (Option Fault)) (after : List WideStep) :
    cleared (.batch users clears faults :: after) =
      (users.zip faults).countP (·.2.isNone) + cleared after := by
  have numbered : (users.zip faults).countP (·.2.isNone) =
      (users.zip faults).zipIdx.countP ((·.2.isNone) ∘ Prod.fst) := by
    rw [← List.countP_map, List.zipIdx_map_fst]
  have batch : cleared [.batch users clears faults] = (users.zip faults).countP (·.2.isNone) := by
    rw [cleared, clearings, List.flatMap_cons, List.flatMap_nil, List.append_nil,
      WideStep.clearings, List.countP_map, numbered]
    rfl
  rw [← batch, ← cleared_append, List.singleton_append]

/-- A plan for one user takes the same steps as a wide plan, and clears nobody. -/
theorem WideTakes.widen_inv {α : Type} {p : Plan α} {a : α} {steps : List WideStep}
    (h : WideTakes others p.widen g steps a v) :
    cleared steps = 0 ∧ ∃ steps, Takes others p g steps a v := by
  induction p generalizing g steps with
  | done b =>
    cases h
    exact ⟨rfl, [], .done _ _⟩
  | perform e next ih =>
    cases h with
    | single acted answered rest =>
      obtain ⟨none, steps, takes⟩ := ih _ rest
      exact ⟨none, _, .perform acted answered takes⟩

theorem counts_done (n : Nat) : Counts n (.done n) := by
  intro others g v steps m h
  cases h
  rfl

theorem Counts.after {α : Type} {base : Nat} {f : α → WidePlan Nat} (h : ∀ a, Counts base (f a))
    (p : Plan α) : Counts base (p.widen >>= f) := by
  intro others g v steps n takes
  obtain ⟨a, t, before, after, first, second, rfl⟩ := takes.bind_inv
  rw [cleared_append, first.widen_inv.1, Nat.zero_add]
  exact h a second

theorem Counts.bind {base : Nat} {p : WidePlan Nat} {f : Nat → WidePlan Nat} (hp : Counts base p)
    (h : ∀ n, Counts n (f n)) : Counts base (p >>= f) := by
  intro others g v steps n takes
  obtain ⟨m, t, before, after, first, second, rfl⟩ := takes.bind_inv
  rw [cleared_append, ← Nat.add_assoc, ← hp first]
  exact h m second

theorem Takes.countCleared_inv {key : String} {batch n : Nat} {users : List (String × Option Fault)}
    (h : Takes others (countCleared key batch users) g steps n v) :
    n = users.countP (·.2.isNone) := by
  induction users generalizing g steps n v with
  | nil => exact h.of_done.2
  | cons user rest ih =>
    obtain ⟨user, fault⟩ := user
    cases fault with
    | none =>
      obtain ⟨m, t, before, after, first, second, rfl⟩ := h.bind_inv
      rw [second.of_done.2, ih first, List.countP_cons_of_pos rfl]
    | some f =>
      obtain ⟨_, t, before, after, first, second, rfl⟩ := h.bind_inv
      exact ih second

theorem counts_clearBatches (key : String) (batch : Nat) (batches : List (List String)) :
    Counts 0 (clearBatches key batch batches) := by
  induction batches generalizing batch with
  | nil => exact counts_done 0
  | cons users rest ih =>
    intro others g v steps n h
    cases h with
    | @batch _ _ _ _ _ clears faults _ _ together further =>
      obtain ⟨m, t, before, after, first, later, rfl⟩ :=
        WideTakes.bind_inv (p := (countCleared key batch (users.zip faults)).widen) further
      obtain ⟨none, _, counting⟩ := first.widen_inv
      obtain ⟨k, u, before', after', second, last, rfl⟩ := later.bind_inv
      cases last
      have here := counting.countCleared_inv
      have there := ih (batch + 1) second
      have nothing : cleared [] = 0 := rfl
      rw [cleared_batch, cleared_append, cleared_append]
      omega

theorem counts_invalidate (size : Nat) (kind : GrantKind) (code : String) :
    Counts 0 (invalidate size kind code) := by
  refine Counts.after (fun _ => Counts.after (fun answer => ?_) _) _
  have zero (e : Event) : Counts 0 (do
      (Plan.report e).widen
      return 0) := Counts.after (fun _ => counts_done 0) _
  split
  · exact zero _
  · exact zero _
  · refine (counts_clearBatches _ 0 _).bind fun n => ?_
    have reports (e e' : Event) : Counts n (do
        (Plan.report e).widen
        (Plan.report e').widen
        return n) := Counts.after (fun _ => Counts.after (fun _ => counts_done n) _) _
    refine Counts.after (fun answer => ?_) _
    cases answer with
    | ok a => exact reports _ _
    | error f => exact Counts.after (fun _ => reports _ _) _

end Plan

open Plan

/-- Whatever others do while a call runs, whatever the state of the circuit and whatever the store
says: the deletion of a user that reports success was thorough, and an invalidation counts the
clearings that report no failure, each of which was thorough. Both hold in particular of calls that
run by themselves. -/
theorem cleared_as_reported (others : Grants → Grants → Prop) (g : Grants) (user code : String)
    (kind : GrantKind) :
    (∀ steps g', Takes others (delete user) g steps true g' → Thorough user steps) ∧
    (∀ size steps n g', WideTakes others (invalidate size kind code) g steps n g' →
      n = cleared steps ∧ ∀ c ∈ clearings steps, c.fault = none → Thorough c.user c.steps) ∧
    (∀ b, (g.deleteUser user).1 = some b →
      ∃ steps, Takes Eq (delete user) g steps b (g.deleteUser user).2) ∧
    ∀ n, (g.invalidate kind code).1 = some n →
      ∃ steps, WideTakes Eq (invalidate g.batchSize kind code) g steps n
        (g.invalidate kind code).2 := by
  refine ⟨fun _ _ h => h.delete_inv.thorough, fun size steps n g' h => ⟨?_, fun c hc none => ?_⟩,
    fun b hb => takes_of_run (Prod.ext hb rfl), fun n hn => wideTakes_of_runWide (Prod.ext hn rfl)⟩
  · have counted := counts_invalidate size kind code h
    omega
  · obtain ⟨t, u, own⟩ := h.takes hc
    rw [none] at own
    exact own.thorough

/-- A user with a role is deleted, and invalidated with the role instead. -/
theorem cleared_as_reported_for_role :
    let new : Grants := .start ⟨0, {}, .bounded (.empty 8)⟩ 3600 100
    let g := (new.set .role "ann" ["admin"] none).2.drain
    (∃ steps, Takes Eq (delete "ann") g steps true (g.deleteUser "ann").2 ∧ Thorough "ann" steps) ∧
      ∃ steps, WideTakes Eq (invalidate 100 .role "admin") g steps 1
        (g.invalidate .role "admin").2 ∧ cleared steps = 1 := by
  intro new g
  obtain ⟨deletes, invalidates, deleted, invalidated⟩ :=
    cleared_as_reported Eq g "ann" "admin" .role
  obtain ⟨steps, takes⟩ := deleted true (by decide +kernel)
  obtain ⟨wide, wideTakes⟩ := invalidated 1 (by decide +kernel)
  exact ⟨⟨steps, takes, deletes _ _ takes⟩,
    wide, wideTakes, (invalidates _ _ _ _ wideTakes).1.symm⟩

/-- A reading fails and opens the circuit; then the deletion of a user succeeds, and nothing has
reached the store. -/
theorem deleted_without_store :
    let remote : Remote := { link := { acts := [.reply (.error "ERR")] } }
    let host : Host := ⟨0, { defaults := { minimumRequests := 1 } }, .remote remote⟩
    let before : Grants := .start host 3600 100
    let g := (before.get .role "bob").2
    (g.deleteUser "ann").1 = some true ∧
      (g.deleteUser "ann").2.host.backend.sent = g.host.backend.sent ∧
      g.host.backend.sent = [["GET", "user:roles:bob"]] := by
  intro remote host before g
  exact ⟨by decide +kernel, by decide +kernel, by decide +kernel⟩

end GrantCache
