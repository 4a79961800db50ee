import GrantCache.Proofs.Grants.Clearing

/-!
# What settling comes to

Who has settled the index writes of a key finds no write that is still to be done there
(`not_owed_settled`). Who has settled those of all keys finds the store and the journal as if all that
was queued had simply run (`run_settleAll`): somebody waits for a write that is not done, if there is
one, and whatever was taken out of the tracking or seen to be done before makes no difference to what
the writes do (`Alike`).
-/

namespace GrantCache

open Program (Every)

/-! ## What writes do does not depend on the tracking -/

/-- What a write does, whoever has seen that it is done. -/
def IndexWrite.task (w : IndexWrite) : Nat × String × List String := (w.id, w.user, w.left)

namespace Grants

variable {g g' g'' : Grants} {id : Nat} {key : String}

/-- The same store and the same events, and the same tasks for index writes. -/
structure Alike (g g' : Grants) : Prop where
  host : g'.host = g.host
  journal : g'.journal = g.journal
  next : g'.upkeep.next = g.upkeep.next
  tasks : g'.upkeep.writes.map IndexWrite.task = g.upkeep.writes.map IndexWrite.task

theorem Alike.refl (g : Grants) : g.Alike g := ⟨rfl, rfl, rfl, rfl⟩

theorem Alike.trans (h : g.Alike g') (h' : g'.Alike g'') : g.Alike g'' :=
  ⟨h'.host.trans h.host, h'.journal.trans h.journal, h'.next.trans h.next, h'.tasks.trans h.tasks⟩

theorem alike_take (g : Grants) (key : String) :
    g.Alike { g with upkeep := (g.upkeep.take key).2 } := ⟨rfl, rfl, rfl, rfl⟩

/-- What is done to one write in the list is done to its task in the list of tasks. -/
theorem tasks_modify {f : IndexWrite → IndexWrite}
    {h : Nat × String × List String → Nat × String × List String}
    (same : ∀ w, (f w).task = h w.task) (id : Nat) (u : Upkeep) :
    (u.modify id f).writes.map IndexWrite.task =
      (u.writes.map IndexWrite.task).map fun x => if x.1 = id then h x else x := by
  rw [Upkeep.modify, List.map_map, List.map_map]
  refine List.map_congr_left fun w _ => ?_
  by_cases hw : w.id = id
  · exact (congrArg IndexWrite.task (if_pos hw)).trans ((same w).trans (if_pos hw).symm)
  · exact (congrArg IndexWrite.task (if_neg hw)).trans (if_neg hw).symm

/-- Whether somebody has seen that a write is done does not matter for what it does. -/
theorem alike_see (g : Grants) (id : Nat) : g.Alike { g with upkeep := g.upkeep.see id } := by
  have tasks := tasks_modify (h := fun x => x) (f := fun w => { w with seen := true })
    (fun _ => rfl) id g.upkeep
  exact ⟨rfl, rfl, rfl, tasks.trans (by simp)⟩

theorem Alike.write? (h : g.Alike g') (id : Nat) :
    (g'.upkeep.write? id).map IndexWrite.task = (g.upkeep.write? id).map IndexWrite.task := by
  have found (writes : List IndexWrite) : (writes.find? (·.id = id)).map IndexWrite.task =
      (writes.map IndexWrite.task).find? (·.1 = id) := by
    rw [List.find?_map]
    rfl
  rw [Upkeep.write?, Upkeep.write?, found, found, h.tasks]

theorem Alike.leftOf (h : g.Alike g') (id : Nat) : g'.upkeep.leftOf id = g.upkeep.leftOf id := by
  have left (u : Upkeep) : u.leftOf id = (((u.write? id).map IndexWrite.task).map (·.2.2)).getD [] := by
    rw [Upkeep.leftOf, Option.map_map]
    rfl
  rw [left, left, h.write?]

theorem Alike.isDone (h : g.Alike g') (id : Nat) : g'.upkeep.isDone id = g.upkeep.isDone id := by
  rw [Bool.eq_iff_iff, Upkeep.isDone_iff, Upkeep.isDone_iff, h.leftOf]

theorem Alike.allDone (h : g.Alike g') (done : g'.AllDone) : g.AllDone :=
  fun id => (h.isDone id).symm.trans (done id)

/-! ### Steps of writes -/

/-- What a step of a write does to store and journal depends on the task only. -/
theorem proceed_eq (g : Grants) (id : Nat) :
    g.proceed id =
      match (g.upkeep.write? id).map IndexWrite.task with
      | some (_, user, key :: _) =>
        ({ (g.ask (.addMembers key [user])).2 with upkeep := g.upkeep.proceed id } : Grants).note
          (match (g.ask (.addMembers key [user])).1 with
          | .fault f => [.notice (.indexNotUpdated key user f)]
          | _ => [])
      | _ => g := by
  rw [proceed]
  cases g.upkeep.write? id with
  | none => rfl
  | some w =>
    obtain ⟨number, user, left, seen⟩ := w
    cases left with
    | nil => rfl
    | cons key rest =>
      -- Asking leaves the upkeep as it is, so it does not matter which of the two is moved on.
      have same := upkeep_ask (.addMembers key [user]) g
      simp only [Option.map_some, IndexWrite.task]
      rcases hr : g.ask (.addMembers key [user]) with ⟨response, t⟩
      obtain same : t.upkeep = g.upkeep := by rwa [hr] at same
      cases response <;> simp [same, note]

/-- A step of the same write on both sides keeps them alike. -/
theorem Alike.proceed (h : g.Alike g') (id : Nat) : (g.proceed id).Alike (g'.proceed id) := by
  rw [proceed_eq, proceed_eq, h.write?]
  split
  · rename_i user key rest _
    have asked : (g'.ask (.addMembers key [user])).1 = (g.ask (.addMembers key [user])).1 ∧
        (g'.ask (.addMembers key [user])).2.host = (g.ask (.addMembers key [user])).2.host ∧
        (g'.ask (.addMembers key [user])).2.journal = (g.ask (.addMembers key [user])).2.journal := by
      simp only [ask, note, h.host, h.journal, and_self]
    obtain ⟨response, host, journal⟩ := asked
    refine ⟨host, ?_, h.next, ?_⟩
    · rw [response]
      exact congrArg (· ++ _) journal
    · have tasks (u : Upkeep) := tasks_modify (h := fun x => (x.1, x.2.1, x.2.2.tail))
        (f := fun w => { w with left := w.left.tail }) (fun _ => rfl) id u
      exact (tasks g'.upkeep).trans ((congrArg _ h.tasks).trans (tasks g.upkeep).symm)
  · exact h

theorem Alike.steps (h : g.Alike g') (id : Nat) (keys : List String) :
    (keys.foldl (fun g _ => g.proceed id) g).Alike (keys.foldl (fun g _ => g.proceed id) g') := by
  induction keys generalizing g g' with
  | nil => exact h
  | cons key rest ih => exact ih (h.proceed id)

/-- All that is queued does the same in both. -/
theorem Alike.drain (h : g.Alike g') : g.drain.Alike g'.drain := by
  -- The queue is a list of tasks, each done in as many steps as it has keys.
  have queue (s : Grants) : s.drain =
      ((s.upkeep.writes.map IndexWrite.task).filter fun x => !x.2.2.isEmpty).foldl
        (fun s x => x.2.2.foldl (fun s _ => s.proceed x.1) s) s := by
    rw [Grants.drain, Upkeep.queued, List.filter_map, List.foldl_map]
    rfl
  rw [queue g, queue g', h.tasks]
  generalize (g.upkeep.writes.map IndexWrite.task).filter _ = tasks
  induction tasks generalizing g g' with
  | nil => exact h
  | cons x rest ih => exact ih (h.steps x.1 x.2.2)

theorem next_drain (g : Grants) : g.drain.upkeep.next = g.upkeep.next := by
  refine drain_induction (R := fun g g' => g'.upkeep.next = g.upkeep.next) (fun _ => rfl)
    (fun h h' => h'.trans h) (fun g id => ?_) g
  rcases proceed_cases id g with ⟨same, -⟩ | ⟨w, key, rest, events, -, -, he⟩
  · rw [same]
  · rw [he]
    rfl

/-! ## What is left to wait for -/

theorem allDone_of_owes (h : ∀ id user key, ¬ g.upkeep.Owes id user key) : g.AllDone := by
  intro id
  rw [Upkeep.isDone_iff, Upkeep.leftOf]
  cases hw : g.upkeep.write? id with
  | none => rfl
  | some w =>
    refine List.eq_nil_iff_forall_not_mem.2 fun key mem => ?_
    exact h id w.user key ⟨w, hw, rfl, mem⟩

/-- Who waits takes nothing out of the tracking. -/
theorem pending_awaitAll (ids : List Nat) (g : Grants) :
    (g.run (ids.forM Plan.await)).2.upkeep.pending = g.upkeep.pending := by
  have awaits : Every (fun e => ∃ id, e = .await id) (ids.forM Plan.await) :=
    Every.forM fun id _ => ⟨⟨id, rfl⟩, fun _ => trivial⟩
  refine run_induction (R := fun g g' => g'.upkeep.pending = g.upkeep.pending) awaits (fun _ => rfl)
    (fun h h' => h'.trans h) ?_ g
  rintro _ s ⟨id, rfl⟩
  exact (sheds_await s id).pending

/-- Settling a key takes its writes out of the tracking and leaves those of other keys. -/
theorem tracked_settled (key other : String) (g : Grants) :
    (g.settled key).upkeep.tracked other = if key = other then [] else g.upkeep.tracked other := by
  rw [← Upkeep.tracked_take, Upkeep.tracked, Upkeep.tracked]
  exact congrArg (fun pending => (Catalog.find? other pending).getD [])
    (pending_awaitAll (g.upkeep.take key).1 { g with upkeep := (g.upkeep.take key).2 })

/-- No write that is still to be done will add anybody to the set under a settled key. -/
theorem not_owed_settled (tidy : g.upkeep.Tidy) (id : Nat) (user key : String) :
    ¬ (g.settled key).upkeep.Owes id user key := by
  intro owes
  have tracked := tidy_settled tidy key id user key owes
  rw [tracked_settled, if_pos rfl] at tracked
  cases tracked

/-- Settling several keys takes the writes of all of them out of the tracking. -/
theorem tracked_settleEach (hb : g.Bounded) (keys : List String) (other : String) :
    (g.run (keys.forM Plan.settle)).2.upkeep.tracked other =
      if other ∈ keys then [] else g.upkeep.tracked other := by
  induction keys generalizing g with
  | nil => rfl
  | cons key rest ih =>
    have first := run_bind_of (run_settle hb key) fun _ => rest.forM Plan.settle
    rw [show g.run ((key :: rest).forM Plan.settle) = _ from first, ih (bounded_settled hb key),
      tracked_settled]
    by_cases hk : key = other
    · simp [hk]
    · simp [hk, Ne.symm hk]

/-! ## Settling everything -/

/-- Nothing has run so far, or all that was queued. -/
def Settling (g t : Grants) : Prop := g.Alike t ∨ g.drain.Alike t

/-- Waiting for a write leaves everything queued or runs all of it. -/
theorem Settling.await {t : Grants} (h : g.Settling t) (id : Nat) : g.Settling (t.await id) := by
  obtain ⟨_, waited⟩ | waited := await_cases id t
  · rw [waited]
    exact h.imp (·.trans (alike_see t id)) (·.trans (alike_see t id))
  · rw [waited]
    right
    rcases h with nothing | all
    · exact nothing.drain.trans (alike_see t.drain id)
    -- Where all that was queued has run nothing is left to run.
    · have done : t.AllDone := fun other => (all.isDone other).trans (isDone_drain g other)
      rw [drain_of_allDone done]
      exact all.trans (alike_see t id)

theorem Settling.perform {t : Grants} (h : g.Settling t) {e : Effect} (he : Plan.Waiting e) :
    g.Settling (perform e t).2 := by
  cases e with
  | takePending key => exact h.imp (·.trans (alike_take t key)) (·.trans (alike_take t key))
  | pendingKeys => exact h
  | await id => exact h.await id
  | _ => exact he.elim

/-- To settle everything is to let all that is queued run. -/
theorem run_settleAll (hb : g.Bounded) (tidy : g.upkeep.Tidy) :
    ∃ t, g.run Plan.settleAll = (some (), t) ∧ g.drain.Alike t ∧ t.AllDone := by
  obtain ⟨answered, -⟩ := isSome_run (Plan.every_settleAll Plan.basic_clearing.toPatient trivial) hb
  obtain ⟨⟨⟩, ha⟩ := Option.isSome_iff_exists.1 answered
  have settling : g.Settling (g.run Plan.settleAll).2 :=
    Plan.waiting_settleAll.run (I := g.Settling) (fun _ _ he h => h.perform he) (Or.inl (.refl g))
  -- Nothing is tracked any more, so nothing is owed.
  have done : (g.run Plan.settleAll).2.AllDone := by
    refine allDone_of_owes fun id user key owes => ?_
    have tracked := tidies_settleAll g tidy id user key owes
    rw [show g.run Plan.settleAll = g.run (g.upkeep.pending.keys.forM Plan.settle) from rfl,
      tracked_settleEach hb] at tracked
    split at tracked
    · cases tracked
    · rename_i untracked
      rw [Upkeep.tracked, Catalog.find?_eq_none_iff.2 untracked] at tracked
      cases tracked
  refine ⟨_, Prod.ext ha rfl, settling.elim (fun nothing => ?_) id, done⟩
  rw [drain_of_allDone (nothing.allDone done)]
  exact nothing

end Grants

end GrantCache
