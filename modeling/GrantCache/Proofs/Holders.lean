import GrantCache.Proofs.Grants.Exposure

/-!
# Whom an invalidation spares

Sets of codes are hints: caching other codes for a user does not take the user out of the sets of the
codes from before. So an invalidation also clears users whose entries do not list the code any more
(`recached_user_is_cleared`). It clears those who are exposed to it and passes everybody else by
(`invalidation_spares_unexposed`): while a user is hidden, everything that an invalidation does is
about other users or about sets in which the user is not (`Grant.Bypasses`).
-/

namespace GrantCache

open Grants
open Program (Every)

namespace Grant

variable {x : Grant} {g g' g'' : Grants} {r : Request} {kind : GrantKind} {user code key : String}

/-! ## Passing a user by -/

/-- Who is hidden stays so. What the keys of the user's entries hold stays, and the user stays in every
set, unless a key is evicted. -/
structure Spared (x : Grant) (g g' : Grants) : Prop where
  hidden : x.Hidden True g'
  entries : Retains (fun key => ∃ kind, key = GrantKind.entryKey x.user kind) g g'
  members : ∀ kind code, x.user ∈ g.view.users kind code →
    x.user ∈ g'.view.users kind code ∨ kind.indexKey code ∈ g'.evicted

def Bypasses (x : Grant) (g g' : Grants) : Prop := x.Hidden True g → x.Spared g g'

theorem Bypasses.refl (x : Grant) (g : Grants) : x.Bypasses g g :=
  fun h => ⟨h, .refl _ g, fun _ _ => Or.inl⟩

theorem Bypasses.trans (h : x.Bypasses g g') (h' : x.Bypasses g' g'') : x.Bypasses g g'' := by
  intro hidden
  have first := h hidden
  have second := h' first.hidden
  refine ⟨second.hidden, first.entries.trans second.entries, fun kind code mem => ?_⟩
  rcases first.members kind code mem with still | gone
  · exact second.members kind code still
  · exact Or.inr (second.entries.evicted_mono gone)

/-- A change that leaves the store alone. -/
theorem Spared.of_host (hidden : x.Hidden True g') (host : g'.host = g.host)
    (evicted : ∃ lost, g'.evicted = g.evicted ++ lost) : x.Spared g g' := by
  have entry (key : String) : g'.item? key = g.item? key := by
    rw [Grants.item?, inner?, host]
    rfl
  obtain ⟨lost, evicted⟩ := evicted
  refine ⟨hidden, ⟨lost, evicted, fun key _ => Or.inl (entry key)⟩, fun kind code mem => Or.inl ?_⟩
  rw [View.users] at mem ⊢
  rwa [show g'.view.item? _ = g.view.item? _ from entry _]

/-- A request that takes away something else. -/
theorem Spared.ask (h : x.Hidden True g) (reduces : r.Reduces) (hidden : x.Hidden True (g.ask r).2)
    (apart : ∀ kind, GrantKind.entryKey x.user kind ∉ r.keys)
    (stays : ∀ kind code, x.user ∈ g.view.users kind code →
      r ≠ .delete (GrantKind.indexKey code kind) ∧ x.user ∉ r.takesOut (kind.indexKey code)) :
    x.Spared g (g.ask r).2 := by
  obtain ⟨s, store, -⟩ := h.sound.store
  have touched : r.touched g.held = r.keys := by
    cases r with
    | deletePattern _ => exact reduces.elim
    | _ => rfl
  refine ⟨hidden, retains_ask store r ?_, fun kind code mem => Or.inl ?_⟩
  · rintro key ⟨kind, rfl⟩
    rw [touched]
    exact apart kind
  · obtain ⟨keeps, untaken⟩ := stays kind code mem
    rw [view_ask h.proper.inner reduces]
    exact View.mem_users_serve h.proper.typed reduces keeps untaken mem

/-! ### Index writes -/

/-- Who is in a set stays in it while a step of an index write is made, unless the set is evicted. -/
theorem mem_users_proceed (hs : g.Sound) (h : g.Proper) (id : Nat)
    (mem : user ∈ g.view.users kind code) :
    user ∈ (g.proceed id).view.users kind code ∨ kind.indexKey code ∈ (g.proceed id).evicted := by
  rcases proceed_cases id g with ⟨same, -⟩ | ⟨w, key, rest, events, hw, hl, he⟩
  · rw [same]
    exact Or.inl mem
  · rw [he]
    obtain ⟨kind', code', rfl⟩ := hs.targets w (List.mem_of_find?_eq_some hw) key (by simp [hl])
    by_cases same : kind'.indexKey code' = kind.indexKey code
    · obtain ⟨rfl, rfl⟩ := GrantKind.indexKey_inj.1 same
      exact Or.inl ((mem_users_addMember hs h).2 (Or.inr mem))
    · exact mem_users_retained ((retains_addMember hs same _).note events) rfl mem

theorem bypasses_proceed (x : Grant) (g : Grants) (id : Nat) : x.Bypasses g (g.proceed id) :=
  fun h => ⟨h.proceed id, retains_proceed h.sound (fun _ ⟨_, own⟩ _ _ =>
    own ▸ GrantKind.entryKey_ne_indexKey _ _ _ _) id, fun _ _ => mem_users_proceed h.sound h.proper id⟩

theorem bypasses_await (x : Grant) (g : Grants) (id : Nat) : x.Bypasses g (g.await id) :=
  await_induction (Bypasses.refl x) .trans (bypasses_proceed x)
    (fun _ _ done h => .of_host (h.see done) rfl ⟨[], (List.append_nil _).symm⟩) g id

/-! ### Effects and plans -/

/-- An effect that passes the user by. -/
def Passes (x : Grant) (e : Effect) : Prop := ∀ g, x.Bypasses g (perform e g).2

theorem patient_passes (x : Grant) : Plan.Patient x.Passes where
  report e g h := .of_host ((upheld_hidden x True).report e g h) rfl ⟨_, evicted_note [e] g⟩
  take key g h := .of_host ((upheld_hidden x True).take key g h) rfl ⟨[], (List.append_nil _).symm⟩
  await id g := bypasses_await x g id

/-- A request that takes nothing away from the user passes the user by, and so does the removal of the
set of the code. -/
theorem passes_ask (reduces : r.Reduces) (upholds : Upholds (x.Hidden True) (.ask r))
    (apart : ∀ kind, GrantKind.entryKey x.user kind ∉ r.keys)
    (keeps : ∀ kind code, r = .delete (GrantKind.indexKey code kind) → kind = x.kind ∧ code = x.code)
    (untaken : ∀ key, x.user ∉ r.takesOut key) : x.Passes (.ask r) := by
  intro g h
  have hidden := upholds g h
  rw [perform_ask] at hidden ⊢
  refine .ask h reduces hidden apart fun kind code mem => ⟨fun removed => ?_, untaken _⟩
  obtain ⟨rfl, rfl⟩ := keeps kind code removed
  exact h.absent trivial mem

theorem entryKey_not_mem_index (user : String) (k kind : GrantKind) (code : String) :
    k.entryKey user ∉ [kind.indexKey code] :=
  fun mem => GrantKind.entryKey_ne_indexKey _ _ _ _ (List.mem_singleton.1 mem)

/-- Whoever else is cleared, the user is not. -/
theorem every_clear_passes (other : user ≠ x.user) : Every x.Passes (Plan.clear user) := by
  have upheld := upheld_hidden x True
  have apart (k kind : GrantKind) : k.entryKey x.user ∉ [kind.entryKey user] :=
    fun mem => other (GrantKind.entryKey_inj.1 (List.mem_singleton.1 mem)).2.symm
  refine Plan.every_clear (patient_passes x) (fun kind => ?_) (fun kind => ?_) fun kind code => ?_
  · exact passes_ask trivial (upheld.get _) (apart · kind) nofun fun _ => List.not_mem_nil
  · refine passes_ask trivial (upheld.deleteEntry kind user) (apart · kind) (fun k c same => ?_)
      fun _ => List.not_mem_nil
    exact absurd (Request.delete.inj same) (GrantKind.entryKey_ne_indexKey kind k user c)
  · refine passes_ask trivial (upheld.removeMember kind code user)
      (entryKey_not_mem_index x.user · kind code) nofun fun key mem => ?_
    rw [Request.takesOut] at mem
    split at mem
    · exact other (List.mem_singleton.1 mem).symm
    · cases mem

/-- Looking for whom to clear passes by a grant. -/
theorem passes_members (x : Grant) : x.Passes (.ask (.members (x.kind.indexKey x.code))) :=
  passes_ask trivial ((upheld_hidden x True).members _ _)
    (entryKey_not_mem_index x.user · x.kind x.code) nofun fun _ => List.not_mem_nil

/-- Removing a set takes nothing from the entry of a user. -/
theorem passes_deleteIndex (x : Grant) : x.Passes (.ask (.delete (x.kind.indexKey x.code))) := by
  refine passes_ask trivial ((upheld_hidden x True).deleteIndex _ _)
    (entryKey_not_mem_index x.user · x.kind x.code) (fun kind code same => ?_) fun _ => List.not_mem_nil
  obtain ⟨rfl, rfl⟩ := GrantKind.indexKey_inj.1 (Request.delete.inj same)
  exact ⟨rfl, rfl⟩

/-- A plan of effects that pass by a grant passes by it, also where plans are run at once. -/
theorem bypasses_runWide {α : Type} {p : WidePlan α} (hp : Every (MadeOf x.Passes) p) (g : Grants) :
    x.Bypasses g (g.runWide p).2 :=
  runWide_induction (R := x.Bypasses) hp (.refl x) .trans (fun _ g he => he g) g

/-- Clearing a code passes by whoever is not in its set. -/
theorem bypasses_clearIndex (x : Grant) (g : Grants) (size : Nat) :
    x.Bypasses g (g.runWide (Plan.clearIndex size x.kind x.code)).2 := by
  intro h
  have patient := patient_passes x
  have asked := passes_members x g
  rw [perform_ask] at asked
  rw [runWide_clearIndex h.sound]
  refine asked.trans (bypasses_runWide ?_ _) h
  cases hu : g.users x.kind x.code with
  | nil =>
    have say (e : Event) : Every (MadeOf x.Passes) (Plan.report e).widen :=
      ⟨patient.report e, fun _ => trivial⟩
    exact (say _).bind fun _ => trivial
  -- Those who are cleared are in the set, and the user is not.
  | cons first rest =>
    refine Plan.every_clearMembers patient.report (fun part hp user hu' => ?_) (passes_deleteIndex x)
      size
    refine every_clear_passes fun same => h.absent trivial ?_
    rw [← users_eq h.sound h.proper, hu, ← same]
    exact hp user hu'

/-- An invalidation passes by who is hidden from it. -/
theorem bypasses_invalidate (x : Grant) (hb : g.Bounded) (size : Nat) :
    x.Bypasses g (g.runWide (Plan.invalidate size x.kind x.code)).2 := by
  rw [runWide_invalidate hb]
  have settles : Every x.Passes (Plan.settle x.indexKey) := Plan.every_settle (patient_passes x) _
  refine Bypasses.trans ?_ (bypasses_clearIndex x _ size)
  exact run_induction (R := x.Bypasses) settles (.refl x) .trans (fun _ g he => he g) g

/-! ## Finding who is exposed -/

/-- Who is exposed stays so, unless the set is evicted. -/
structure Lands (x : Grant) (g g' : Grants) : Prop where
  sound : g'.Sound
  proper : g'.Proper
  evicted : ∀ key ∈ g.evicted, key ∈ g'.evicted
  exposed : x.Exposed g → x.Exposed g' ∨ x.indexKey ∈ g'.evicted

/-- What a sound and proper cache does while index writes are waited for. -/
def Awaits (x : Grant) (g g' : Grants) : Prop := g.Sound → g.Proper → x.Lands g g'

theorem Awaits.refl (x : Grant) (g : Grants) : x.Awaits g g :=
  fun hs proper => ⟨hs, proper, fun _ h => h, Or.inl⟩

theorem Awaits.trans (h : x.Awaits g g') (h' : x.Awaits g' g'') : x.Awaits g g'' := by
  intro hs proper
  have first := h hs proper
  have second := h' first.sound first.proper
  refine ⟨second.sound, second.proper, fun key hk => second.evicted key (first.evicted key hk),
    fun exposed => ?_⟩
  rcases first.exposed exposed with still | gone
  · exact second.exposed still
  · exact Or.inr (second.evicted _ gone)

theorem awaits_proceed (x : Grant) (g : Grants) (id : Nat) : x.Awaits g (g.proceed id) := by
  intro hs proper
  have retains : Retains (fun _ => False) g (g.proceed id) :=
    retains_proceed hs (fun _ h => h.elim) id
  refine ⟨upheld_sound.proceed g id hs, proper.proceed id, fun _ => retains.evicted_mono, ?_⟩
  rintro (mem | ⟨other, due⟩)
  · exact (mem_users_proceed hs proper id mem).imp_left Or.inl
  · rcases proceed_cases id g with ⟨same, -⟩ | ⟨w, key, rest, events, hw, hl, he⟩
    · rw [same]
      exact Or.inl (Or.inr ⟨other, due⟩)
    · left
      rw [he]
      -- A write that was due still is, or it has got to the set.
      rcases Upkeep.Owes.proceed due id with still | ⟨-, w', hw', hu, hh⟩
      · exact Or.inr ⟨other, still⟩
      · obtain rfl : w = w' := Option.some.inj (hw.symm.trans hw')
        rw [hl, List.head?_cons, Option.some.injEq] at hh
        rw [hh, hu]
        exact Or.inl ((mem_users_addMember hs proper).2 (Or.inl rfl))

theorem awaits_see (x : Grant) (g : Grants) {id : Nat} (done : g.upkeep.isDone id = true) :
    x.Awaits g { g with upkeep := g.upkeep.see id } := by
  intro hs proper
  refine ⟨(respects_see x g done hs).sound, proper.of_backend rfl, fun _ h => h,
    fun exposed => Or.inl ?_⟩
  exact exposed.imp_right fun ⟨other, due⟩ => ⟨other, due.see _⟩

theorem awaits_await (x : Grant) (g : Grants) (id : Nat) : x.Awaits g (g.await id) :=
  await_induction (Awaits.refl x) .trans (awaits_proceed x) (fun g _ => awaits_see x g) g id

theorem awaits_settled (x : Grant) (g : Grants) (key : String) : x.Awaits g (g.settled key) := by
  refine run_induction (R := x.Awaits) (Plan.waiting_settle key) (.refl x) .trans ?_ g
  intro e g he
  cases e with
  | takePending key =>
    exact fun hs proper => ⟨(respects_take x g key hs).sound, proper.of_backend rfl,
      fun _ h => h, Or.inl⟩
  | pendingKeys => exact .refl x g
  | await id => exact awaits_await x g id
  | _ => exact he.elim

/-- When the index writes of the code are done, who is exposed is in the set. -/
theorem Exposed.mem_settled (h : x.Exposed g) (hs : g.Sound) (proper : g.Proper)
    (tidy : g.upkeep.Tidy) (kept : x.indexKey ∉ (g.settled x.indexKey).evicted) :
    x.user ∈ (g.settled x.indexKey).users x.kind x.code := by
  have lands := awaits_settled x g x.indexKey hs proper
  rw [users_eq lands.sound lands.proper]
  rcases (lands.exposed h).resolve_right kept with mem | ⟨id, due⟩
  · exact mem
  · exact absurd due (not_owed_settled tidy id _ _)

/-- Who is exposed is cleared, whatever the entries list. -/
theorem Exposed.cleared (h : x.Exposed g) (hs : g.Sound) (proper : g.Proper) (tidy : g.upkeep.Tidy)
    (size : Nat) (kept : x.indexKey ∉ (g.runWide (Plan.invalidate size x.kind x.code)).2.evicted)
    (kind : GrantKind) :
    Cleared ⟨kind, x.user, x.code⟩ (g.runWide (Plan.invalidate size x.kind x.code)).2 := by
  rw [runWide_invalidate hs.bounded] at kept ⊢
  have continues := Upheld.runWide ((upheld_continues _).every_clearIndex size x.kind x.code)
    (.refl (g.settled x.indexKey))
  have mem := h.mem_settled hs proper tidy fun gone => kept (continues.evicted.subset gone)
  exact cleared_of_mem (x := ⟨kind, x.user, x.code⟩) (respects_settled x g _ hs).sound size mem

end Grant

/-! ## Invalidation -/

/-- In every state that a run reaches, and while nothing is evicted: an invalidation of a code leaves
both entries of a user as they are, and the user in all sets, unless the user is exposed to it; and
the user gets into no sets but those for which an index write was queued. Who is exposed loses both
entries, whatever they list. But only who was cached with the code is exposed, and only until the code
is invalidated or all is flushed. -/
theorem invalidation_spares_unexposed {now limit ttl size : Nat} {breaker : Breaker}
    {steps : List Step} {g : Grants}
    (run : Runs (.start ⟨now, breaker, .bounded (.empty limit)⟩ ttl size) steps g)
    (kind : GrantKind) (code user : String) (kept : (g.invalidate kind code).2.evicted = []) :
    (¬ Grant.Exposed ⟨kind, user, code⟩ g →
      (∀ k, (g.invalidate kind code).2.item? (GrantKind.entryKey user k) =
        g.item? (k.entryKey user)) ∧
      ∀ k c, (user ∈ g.view.users k c → user ∈ (g.invalidate kind code).2.view.users k c) ∧
        (user ∈ (g.invalidate kind code).2.view.users k c →
          user ∈ g.view.users k c ∨ ∃ id, g.upkeep.Owes id user (k.indexKey c))) ∧
    (Grant.Exposed ⟨kind, user, code⟩ g →
      (∀ k, ((g.invalidate kind code).2.get k user).1 = some none) ∧
      ∃ before after codes seconds wait time,
        steps = before ++ ⟨.set kind user codes seconds wait, time, true⟩ :: after ∧ code ∈ codes ∧
        ∀ s ∈ after, ¬ s.move.Exhausts ⟨kind, user, code⟩) := by
  have fresh := orderly_start now breaker limit ttl size
  have started := Grant.hidden_start ⟨kind, user, code⟩ now breaker limit ttl size
  have ho := run.orderly fresh
  have proper := run.proper fresh started.proper
  have nothing : ∀ key, key ∉ (g.invalidate kind code).2.evicted := by
    rw [kept]
    exact fun _ => List.not_mem_nil
  constructor
  · intro hidden
    have spared := Grant.bypasses_invalidate ⟨kind, user, code⟩ ho.sound.bounded g.batchSize
      (Grant.hidden_of_not_exposed ho.sound proper hidden)
    have before : g.evicted = [] := List.eq_nil_iff_forall_not_mem.2 fun key hk =>
      nothing key (spared.entries.evicted_mono hk)
    refine ⟨fun k => spared.entries.item? (kept.trans before.symm) ⟨k, rfl⟩,
      fun k c => ⟨fun mem => (spared.members k c mem).resolve_right (nothing _), fun mem => ?_⟩⟩
    -- Who was hidden from another code still is.
    refine Classical.byContradiction fun unexposed => ?_
    have other := Grant.hidden_of_not_exposed (x := ⟨k, user, c⟩) ho.sound proper unexposed
    exact (other.move (m := .invalidate kind code) trivial fun h => h.2).absent trivial mem
  · intro exposed
    have sound : (g.invalidate kind code).2.Sound :=
      upheld_sound.move (m := .invalidate kind code) ho.sound nofun nofun
    refine ⟨fun k => (exposed.cleared ho.sound proper ho.tidy g.batchSize (nothing _) k).get sound, ?_⟩
    obtain ⟨before, ⟨move, time, ended⟩, after, rfl, ⟨rfl, exposes⟩, quiet⟩ :=
      (run.exposed fresh started.proper exposed).resolve_left fun h => started.not_exposed h.1
    cases move with
    | set k u codes seconds wait =>
      obtain ⟨rfl, rfl, hc⟩ := exposes
      exact ⟨before, after, codes, seconds, wait, time, rfl, hc, quiet⟩
    | _ => exact exposes.elim

/-- Ann is the only administrator: Bob keeps his entry and stays in the set of the developers. -/
theorem invalidation_spares_developer :
    ∃ g, Runs (.start ⟨0, {}, .bounded (.empty 8)⟩ 3600 100)
        [⟨.set .role "ann" ["admin"] none true, 0, true⟩,
          ⟨.set .role "bob" ["dev"] none true, 0, true⟩] g ∧
      (g.invalidate .role "admin").2.evicted = [] ∧
      ¬ Grant.Exposed ⟨.role, "bob", "admin"⟩ g ∧
      (g.invalidate .role "admin").2.item? (GrantKind.role.entryKey "bob") =
        g.item? (GrantKind.role.entryKey "bob") ∧
      "bob" ∈ (g.invalidate .role "admin").2.view.users .role "dev" := by
  have run : Runs (.start ⟨0, {}, .bounded (.empty 8)⟩ 3600 100)
      [⟨.set .role "ann" ["admin"] none true, 0, true⟩,
        ⟨.set .role "bob" ["dev"] none true, 0, true⟩] _ := .step trivial (.step trivial (.done _))
  obtain ⟨spared, -⟩ := invalidation_spares_unexposed run .role "admin" "bob" (by decide +kernel)
  obtain ⟨entries, members⟩ := spared (by decide +kernel)
  exact ⟨_, run, by decide +kernel, by decide +kernel, entries .role,
    (members .role "dev").1 (by decide +kernel)⟩

/-- Ann was an administrator and is a developer now. Her entry does not list the first code any more,
but an invalidation of that code removes it, and takes her out of the set of the developers. -/
theorem recached_user_is_cleared :
    ∃ g, Runs (.start ⟨0, {}, .bounded (.empty 100)⟩ 3600 100)
        [⟨.set .role "ann" ["admin"] none true, 0, true⟩,
          ⟨.set .role "ann" ["dev"] none true, 0, true⟩] g ∧
      (g.invalidate .role "admin").2.evicted = [] ∧
      (g.get .role "ann").1 = some (some ["dev"]) ∧ "ann" ∈ g.view.users .role "dev" ∧
      ((g.invalidate .role "admin").2.get .role "ann").1 = some none ∧
      "ann" ∉ (g.invalidate .role "admin").2.view.users .role "dev" := by
  have run : Runs (.start ⟨0, {}, .bounded (.empty 100)⟩ 3600 100)
      [⟨.set .role "ann" ["admin"] none true, 0, true⟩,
        ⟨.set .role "ann" ["dev"] none true, 0, true⟩] _ := .step trivial (.step trivial (.done _))
  exact ⟨_, run, by decide +kernel, by decide +kernel, by decide +kernel, by decide +kernel,
    by decide +kernel⟩

end GrantCache
