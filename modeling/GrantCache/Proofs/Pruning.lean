import GrantCache.Proofs.Grants.Moves
import Mathlib.Data.List.Nodup
import Mathlib.Data.List.Perm.Subperm

/-!
# Which index writes stay tracked

When codes are cached, the index write is tracked under the key of each code, and the writes that are
known to be done are no longer tracked there. Only somebody who has waited for a write makes it known
that it is done. A write whose caller did not wait gets done without anybody noticing, and stays tracked
(`finished_write_stays_tracked`). So under a key of the new write there are, besides itself, those that
were tracked there before and that nobody has seen done (`tracked_after_set`). All that is tracked there
is queued or done unnoticed, and the others are no more than the calls that cached the code and did not
wait.

Whatever happens takes writes off the lists or lets them be seen (`Dwindles`), but for a launch, which
adds one write to some of them (`unseen_launch`).
-/

namespace GrantCache

open scoped List

namespace Upkeep

variable {u v w : Upkeep} {id other : Nat} {key : String} {keys : List String} {user : String}

/-- The writes that are done, though nobody has seen so. -/
def unnoticed (u : Upkeep) : List IndexWrite := u.writes.filter fun w => w.isDone && !w.seen

/-- A write that nobody has seen done is among the writes. -/
theorem exists_of_isSeen (h : u.isSeen id = false) :
    ∃ w ∈ u.writes, w.id = id ∧ u.write? id = some w ∧ w.seen = false := by
  rw [isSeen] at h
  cases hw : u.write? id with
  | none => simp [hw] at h
  | some w =>
    refine ⟨w, List.mem_of_find?_eq_some hw, by simpa using List.find?_some hw, rfl, ?_⟩
    simpa [hw] using h

theorem exists_unnoticed (h : u.isSeen id = false) (done : u.isDone id = true) :
    ∃ w ∈ u.unnoticed, w.id = id := by
  obtain ⟨w, mem, number, hw, seen⟩ := exists_of_isSeen h
  have done : w.isDone = true := by simpa [isDone, hw] using done
  exact ⟨w, List.mem_filter.2 ⟨mem, by simp [done, seen]⟩, number⟩

/-- Writes that nobody has seen done are queued or unnoticed. -/
theorem length_unseen_le (once : (u.tracked key).Nodup) :
    (u.unseen key).length ≤ u.queued.length + u.unnoticed.length := by
  have among : u.unseen key ⊆ (u.queued ++ u.unnoticed).map (·.id) := by
    intro id hi
    have seen : u.isSeen id = false := by simpa using (List.mem_filter.1 hi).2
    cases done : u.isDone id with
    | true =>
      obtain ⟨w, hw, number⟩ := exists_unnoticed seen done
      exact List.mem_map.2 ⟨w, List.mem_append_right _ hw, number⟩
    | false =>
      obtain ⟨w, mem, number, hw, -⟩ := exists_of_isSeen seen
      have left : w.isDone = false := by simpa [isDone, hw] using done
      have queued : w ∈ u.queued := List.mem_filter.2 ⟨mem, by simp [left]⟩
      exact List.mem_map.2 ⟨w, List.mem_append_left _ queued, number⟩
  have bound := (List.subperm_of_subset (once.filter _) among).length_le
  rwa [List.length_map, List.length_append] at bound

/-! ## The lists grow only by a launch -/

/-- No write is launched, no list grows, and who was seen done stays so. -/
structure Dwindles (u v : Upkeep) : Prop where
  next : v.next = u.next
  tracked : ∀ key, v.tracked key <+ u.tracked key
  unseen : ∀ key, v.unseen key <+ u.unseen key

theorem Dwindles.refl (u : Upkeep) : u.Dwindles u := ⟨rfl, fun _ => .refl _, fun _ => .refl _⟩

theorem Dwindles.trans (h : u.Dwindles v) (h' : v.Dwindles w) : u.Dwindles w :=
  ⟨h'.next.trans h.next, fun key => (h'.tracked key).trans (h.tracked key),
    fun key => (h'.unseen key).trans (h.unseen key)⟩

/-- Tracking as it was, and who was seen done still is. -/
theorem dwindles_of_seen (next : v.next = u.next) (pending : v.pending = u.pending)
    (seen : ∀ id, u.isSeen id = true → v.isSeen id = true) : u.Dwindles v := by
  have same (key : String) : v.tracked key = u.tracked key := by
    rw [Upkeep.tracked, Upkeep.tracked, pending]
  refine ⟨next, fun key => same key ▸ .refl _, fun key => ?_⟩
  rw [Upkeep.unseen, Upkeep.unseen, same]
  refine List.monotone_filter_right _ fun id unseen => ?_
  simp only [Bool.not_eq_true'] at unseen ⊢
  rw [Bool.eq_false_iff] at unseen ⊢
  exact fun was => unseen (seen id was)

theorem isSeen_proceed (id other : Nat) (u : Upkeep) :
    (u.proceed id).isSeen other = u.isSeen other := by
  rw [isSeen, isSeen, write?_proceed]
  split
  · rename_i same
    rw [same]
    cases u.write? id <;> rfl
  · rfl

/-- A write that was noticed stays noticed. -/
theorem isSeen_see (id other : Nat) (u : Upkeep) :
    (u.see id).isSeen other = (decide (other = id) || u.isSeen other) := by
  rw [isSeen, isSeen, write?_see]
  by_cases same : other = id
  · rw [if_pos same]
    cases u.write? id <;> simp [same]
  · simp [same]

theorem dwindles_proceed (u : Upkeep) (id : Nat) : u.Dwindles (u.proceed id) :=
  dwindles_of_seen rfl rfl fun other seen => (isSeen_proceed id other u).trans seen

theorem dwindles_see (u : Upkeep) (id : Nat) : u.Dwindles (u.see id) :=
  dwindles_of_seen rfl rfl fun other seen => by rw [isSeen_see, seen, Bool.or_true]

/-- Taking writes out of the tracking leaves fewer on every list. -/
theorem dwindles_take (u : Upkeep) (key : String) : u.Dwindles (u.take key).2 := by
  have tracked (other : String) : (u.take key).2.tracked other <+ u.tracked other := by
    rw [tracked_take]
    split
    · exact List.nil_sublist _
    · exact .refl _
  exact ⟨rfl, tracked, fun other => (tracked other).filter _⟩

/-- A write that was seen is on no list of those that nobody has seen. -/
theorem unseen_see (id : Nat) (key : String) (u : Upkeep) :
    (u.see id).unseen key = (u.unseen key).filter (· ≠ id) := by
  rw [unseen, unseen, List.filter_filter]
  refine List.filter_congr fun other _ => ?_
  rw [isSeen_see]
  by_cases same : other = id <;> simp [same]

/-! ## What a launch adds -/

/-- Only writes that were launched are tracked, each once under a key. -/
structure Listed (u : Upkeep) : Prop extends u.Sound where
  earlier : ∀ key, ∀ id ∈ u.tracked key, id < u.next
  once : ∀ key, (u.tracked key).Nodup

theorem listed_empty : Listed {} := ⟨sound_empty, fun _ _ => nofun, fun _ => List.nodup_nil⟩

theorem Listed.dwindles (h : u.Listed) (hs : v.Sound) (hv : u.Dwindles v) : v.Listed :=
  ⟨hs, fun key id hi => hv.next ▸ h.earlier key id ((hv.tracked key).subset hi),
    fun key => (h.once key).sublist (hv.tracked key)⟩

theorem unseen_track_of_ne {key' : String} (h : key ≠ key') (id : Nat) (u : Upkeep) :
    (u.track id key).unseen key' = u.unseen key' := by
  rw [unseen, tracked_track, if_neg h]
  exact List.filter_congr fun other _ => rfl

/-- A new write is tracked under its keys, where writes that were noticed are pruned. -/
theorem tracked_foldl_track (hk : keys.Nodup) (id : Nat) (u : Upkeep) (key : String) :
    (keys.foldl (track id) u).tracked key =
      if key ∈ keys then u.unseen key ++ [id] else u.tracked key := by
  induction keys generalizing u with
  | nil => simp
  | cons first rest ih =>
    obtain ⟨fresh, hk⟩ := List.nodup_cons.1 hk
    rw [List.foldl_cons, ih hk, tracked_track]
    by_cases same : first = key
    · -- the key does not come again
      subst same
      simp [fresh]
    · have apart : ¬ key = first := fun h => same h.symm
      simp [same, apart, unseen_track_of_ne same]

theorem isSeen_launch (hs : u.Sound) (user : String) (keys : List String) (id : Nat) :
    (u.launch user keys).2.isSeen id = (decide (id ≠ u.next) && u.isSeen id) := by
  rw [isSeen, isSeen, write?_launch hs]
  by_cases same : id = u.next <;> simp [same]

/-- What is tracked after a launch: under its keys, what nobody has seen done and the new write. -/
theorem tracked_launch_eq (hl : u.Listed) (hk : keys.Nodup) (user key : String) :
    (u.launch user keys).2.tracked key =
      if key ∈ keys then u.unseen key ++ [u.next] else u.tracked key := by
  rw [launch, tracked_foldl_track hk]
  split
  · refine congrArg (· ++ [u.next]) (List.filter_congr fun id hi => ?_)
    -- Tracked writes were launched before, so that the new one is none of them.
    have old : id ≠ u.next := Nat.ne_of_lt (hl.earlier key id hi)
    have seen := isSeen_launch hl.toSound user keys id
    rw [launch, isSeen, write?_foldl_track] at seen
    rw [isSeen, seen]
    simp [old]
  · rfl

/-- A new write is the last of those nobody has noticed, under each of its keys. -/
theorem unseen_launch (hl : u.Listed) (hk : keys.Nodup) (user key : String) :
    (u.launch user keys).2.unseen key =
      if key ∈ keys then u.unseen key ++ [u.next] else u.unseen key := by
  have old (id : Nat) (hi : id ∈ u.tracked key) :
      (u.launch user keys).2.isSeen id = u.isSeen id := by
    rw [isSeen_launch hl.toSound]
    simp [Nat.ne_of_lt (hl.earlier key id hi)]
  have kept : ((u.tracked key).filter fun id => !(u.launch user keys).2.isSeen id) = u.unseen key :=
    List.filter_congr fun id hi => by rw [old id hi]
  rw [unseen, tracked_launch_eq hl hk]
  split
  · have again : ((u.unseen key).filter fun id => !(u.launch user keys).2.isSeen id) =
        u.unseen key := by
      rw [← kept, List.filter_filter]
      simp
    have new : (u.launch user keys).2.isSeen u.next = false := by
      rw [isSeen_launch hl.toSound]
      simp
    rw [List.filter_append, again, List.filter_singleton, new]
    rfl
  · exact kept

/-- A new write is listed once under each of its keys. -/
theorem Listed.launch (h : u.Listed) (hk : keys.Nodup) (user : String) :
    (u.launch user keys).2.Listed := by
  refine ⟨h.toSound.launch user keys, ?_, ?_⟩
  · intro key id hi
    rw [(writes_launch user keys u).2]
    rw [tracked_launch_eq h hk] at hi
    split at hi
    · rcases List.mem_append.1 hi with old | new
      · exact Nat.lt_succ_of_lt (h.earlier key id (List.mem_filter.1 old).1)
      · exact List.mem_singleton.1 new ▸ Nat.lt_succ_self _
    · exact Nat.lt_succ_of_lt (h.earlier key id hi)
  · intro key
    rw [tracked_launch_eq h hk]
    split
    · refine List.Nodup.append ((h.once key).filter _) (List.nodup_singleton _) ?_
      rw [List.disjoint_singleton]
      exact fun old => Nat.lt_irrefl _ (h.earlier key _ (List.mem_filter.1 old).1)
    · exact h.once key

end Upkeep

open Grants
open Upkeep (Dwindles Listed)

variable {g g' : Grants} {m : Move} {kind : GrantKind} {user code : String} {codes : List String}
  {ttl : Option Nat} {id : Nat}

/-! ## Over any store -/

/-- What holds of the tracking, and is kept when writes are taken out, make progress and are seen done,
is kept by all but a launch. -/
theorem upheld_upkeep {P : Upkeep → Prop} (take : ∀ u key, P u → P (u.take key).2)
    (proceed : ∀ u id, P u → P (u.proceed id))
    (see : ∀ u id, u.isDone id = true → P u → P (u.see id)) : Upheld fun g => P g.upkeep := by
  have step (g : Grants) (id : Nat) (h : P g.upkeep) : P (g.proceed id).upkeep := by
    rcases proceed_cases id g with ⟨same, -⟩ | ⟨w, key, rest, events, -, -, he⟩
    · rwa [same]
    · rw [he]
      exact proceed g.upkeep id h
  have await (g : Grants) (id : Nat) : P g.upkeep → P (g.await id).upkeep :=
    await_induction (R := fun g g' => P g.upkeep → P g'.upkeep) (fun _ => fun h => h)
      (fun h h' => h' ∘ h) step (fun g id done => see g.upkeep id done) g id
  -- No store has anything to do with the tracking.
  have aside (r : Request) : Upholds (fun g => P g.upkeep) (.ask r) := upholds_ask fun _ h => h
  exact {
    get := fun _ => aside _
    report := fun _ _ h => h
    take := fun key g h => take g.upkeep key h
    await := fun id g h => await g id h
    deleteEntry := fun _ _ => aside _
    removeMember := fun _ _ _ => aside _
    members := fun _ _ => aside _
    deleteIndex := fun _ _ => aside _
    family := fun _ _ => aside _
    proceed := step
    purge := fun _ h => h
    pass := fun _ _ h => h }

theorem upheld_dwindles (u : Upkeep) : Upheld fun g => u.Dwindles g.upkeep :=
  upheld_upkeep (fun v key h => h.trans (Upkeep.dwindles_take v key))
    (fun v id h => h.trans (Upkeep.dwindles_proceed v id))
    (fun v id _ h => h.trans (Upkeep.dwindles_see v id))

theorem nodup_eraseDups : ∀ codes : List String, codes.eraseDups.Nodup
  | [] => List.nodup_nil
  | code :: rest => by
    rw [List.eraseDups_cons, List.nodup_cons, List.mem_eraseDups]
    exact ⟨by simp, nodup_eraseDups _⟩
termination_by codes => codes.length
decreasing_by exact Nat.lt_succ_of_le (List.length_filter_le ..)

/-- A launch has each key once. -/
theorem nodup_indexKeys (kind : GrantKind) (codes : List String) :
    (codes.eraseDups.map fun code => kind.indexKey code).Nodup :=
  (nodup_eraseDups codes).map fun _ _ same => (GrantKind.indexKey_inj.1 same).2

theorem mem_indexKeys {other : GrantKind} :
    kind.indexKey code ∈ (codes.eraseDups.map fun code => other.indexKey code) ↔
      other = kind ∧ code ∈ codes := by
  rw [List.mem_map]
  constructor
  · rintro ⟨name, mem, same⟩
    obtain ⟨rfl, rfl⟩ := GrantKind.indexKey_inj.1 same
    exact ⟨rfl, List.mem_eraseDups.1 mem⟩
  · rintro ⟨rfl, mem⟩
    exact ⟨code, List.mem_eraseDups.2 mem, rfl⟩

theorem listed_move (h : g.upkeep.Listed) (m : Move) : (g.move m).2.upkeep.Listed := by
  have upheld : Upheld fun g => g.upkeep.Listed :=
    upheld_upkeep (fun u key h => h.dwindles (h.take key) (Upkeep.dwindles_take u key))
      (fun u id h => h.dwindles (h.proceed id) (Upkeep.dwindles_proceed u id))
      (fun u id done h => h.dwindles (h.see done) (Upkeep.dwindles_see u id))
  refine upheld.move h (fun kind user codes ttl _ _ => ?_) fun _ _ => h
  refine upheld.set (upholds_ask fun _ h => h) (fun g h => ?_) h
  exact h.launch (nodup_indexKeys kind codes) user

theorem Runs.listed {steps : List Step} (run : Runs g steps g') (h : g.upkeep.Listed) :
    g'.upkeep.Listed := by
  induction run with
  | done g => exact h
  | step _ _ ih => exact ih (listed_move h _)

/-! ## Caching codes -/

/-- Caching codes launches one write for all of them, or nothing. -/
theorem upkeep_set (kind : GrantKind) (user : String) (codes : List String) (ttl : Option Nat)
    (g : Grants) :
    ((∀ id, (g.set kind user codes ttl).1 ≠ some (some id)) ∧
        (g.set kind user codes ttl).2.upkeep = g.upkeep) ∨
      ((g.set kind user codes ttl).1 = some (some g.upkeep.next) ∧
        (g.set kind user codes ttl).2.upkeep = (g.upkeep.launch user
          (codes.eraseDups.map fun code => kind.indexKey code)).2) := by
  rw [Grants.set, run, Plan.store, Plan.ask]
  simp only [Program.perform_bind, Program.run, perform]
  have same := upkeep_ask (.set (kind.entryKey user) (.texts codes.eraseDups)
    (some (ttl.getD g.defaultTtl))) g
  rcases hr : g.ask (.set (kind.entryKey user) (.texts codes.eraseDups)
    (some (ttl.getD g.defaultTtl))) with ⟨answer, t⟩
  rw [hr] at same
  rw [← show t.upkeep = g.upkeep from same]
  cases answer with
  | beyondClock => exact Or.inl ⟨fun _ launched => (by cases launched), rfl⟩
  | fault f => exact Or.inl ⟨fun _ launched => (by cases launched), rfl⟩
  | ok done =>
    cases codes.eraseDups with
    | nil => exact Or.inl ⟨fun _ launched => (by cases launched), rfl⟩
    | cons first rest => exact Or.inr ⟨rfl, rfl⟩

/-- A move that caches a code for somebody and does not wait for the index write. -/
def Move.drops (kind : GrantKind) (code : String) : Move → Bool
  | set k _ codes _ wait => decide (k = kind ∧ code ∈ codes) && !wait
  | _ => false

/-- Whoever waits for a write has seen it done. -/
theorem unseen_await (g : Grants) (id : Nat) (key : String) :
    (g.await id).upkeep.unseen key <+ (g.upkeep.unseen key).filter (· ≠ id) := by
  have drained : g.upkeep.Dwindles g.drain.upkeep :=
    drain_induction (R := fun g g' => g.upkeep.Dwindles g'.upkeep) (fun _ => .refl _) .trans
      (fun g id => (upheld_dwindles g.upkeep).proceed g id (.refl _)) g
  obtain ⟨-, waited⟩ | waited := await_cases id g
  · rw [waited, Upkeep.unseen_see]
  · rw [waited, Upkeep.unseen_see]
    exact (drained.unseen key).filter _

/-- A move that caches codes launches a write, which may be waited for at once, or leaves the tracking
as it is. -/
theorem upkeep_move_set (kind : GrantKind) (user : String) (codes : List String) (ttl : Option Nat)
    (wait : Bool) (g : Grants) :
    (g.move (.set kind user codes ttl wait)).2.upkeep = g.upkeep ∨
      ∃ t : Grants, t.upkeep = (g.upkeep.launch user
          (codes.eraseDups.map fun code => kind.indexKey code)).2 ∧
        (g.move (.set kind user codes ttl wait)).2 = if wait then t.await g.upkeep.next else t := by
  have cached := upkeep_set kind user codes ttl g
  rw [move]
  rcases hr : g.set kind user codes ttl with ⟨_ | _ | id, t⟩ <;> rw [hr] at cached
  · exact Or.inl (cached.resolve_right fun launched => by cases launched.1).2
  · exact Or.inl (cached.resolve_right fun launched => by cases launched.1).2
  · obtain ⟨nothing, -⟩ | ⟨launched, after⟩ := cached
    · exact absurd rfl (nothing id)
    · obtain rfl : id = g.upkeep.next := by simpa using launched
      exact Or.inr ⟨t, after, rfl⟩

/-- Caching a code adds its write to those under the code's key that nobody has seen done, unless
somebody waits for it. -/
theorem length_unseen_set (hl : g.upkeep.Listed) (kind other : GrantKind)
    (code user : String) (codes : List String) (ttl : Option Nat) (wait : Bool) :
    ((g.move (.set other user codes ttl wait)).2.upkeep.unseen (kind.indexKey code)).length ≤
      (g.upkeep.unseen (kind.indexKey code)).length +
        ((Move.set other user codes ttl wait).drops kind code).toNat := by
  obtain same | ⟨t, after, waited⟩ := upkeep_move_set other user codes ttl wait g
  · rw [same]
    exact Nat.le_add_right _ _
  have listed := Upkeep.unseen_launch hl (nodup_indexKeys other codes) user (kind.indexKey code)
  rw [← after] at listed
  simp only [mem_indexKeys] at listed
  rw [waited]
  cases wait with
  | false =>
    rw [if_neg Bool.false_ne_true, listed, Move.drops]
    split <;> simp_all
  | true =>
    -- The new write is seen, so that no more are left than before.
    have seen := (unseen_await t g.upkeep.next (kind.indexKey code)).length_le
    refine Nat.le_add_right_of_le (Nat.le_trans seen ?_)
    rw [listed]
    split
    · simpa using List.length_filter_le ..
    · exact List.length_filter_le ..

/-- A move adds to the writes under a code's key that nobody has seen done only if it drops one. -/
theorem length_unseen_move (hl : g.upkeep.Listed) (kind : GrantKind)
    (code : String) (m : Move) :
    ((g.move m).2.upkeep.unseen (kind.indexKey code)).length ≤
      (g.upkeep.unseen (kind.indexKey code)).length + (m.drops kind code).toNat := by
  have quiet (hm : ∀ kind user codes ttl wait, m ≠ .set kind user codes ttl wait) :
      g.upkeep.Dwindles (g.move m).2.upkeep :=
    (upheld_dwindles g.upkeep).move (.refl g.upkeep)
      (fun _ _ _ _ _ he => absurd he (hm _ _ _ _ _)) (fun _ _ => .refl g.upkeep)
  cases m with
  | set other user codes ttl wait => exact length_unseen_set hl kind other code user codes ttl wait
  | _ => exact Nat.le_add_right_of_le ((quiet nofun).unseen _).length_le

/-- Along a run the unnoticed writes of a code grow by one at most for each caching whose handle was
dropped. -/
theorem Runs.length_unseen {steps : List Step} (run : Runs g steps g') (hl : g.upkeep.Listed)
    (kind : GrantKind) (code : String) :
    (g'.upkeep.unseen (kind.indexKey code)).length ≤
      (g.upkeep.unseen (kind.indexKey code)).length +
        steps.countP fun s => s.move.drops kind code := by
  induction run with
  | done g => exact Nat.le_refl _
  | @step g _ m _ _ _ ih =>
    have first := length_unseen_move hl kind code m
    have rest := ih (listed_move hl m)
    rw [List.countP_cons]
    cases hd : m.drops kind code <;> simp [hd] at first ⊢ <;> omega

/-! ## Right after codes were cached -/

/-- Right after a call that launched an index write, over any store and whatever happened before: under
the key of each of the codes are tracked those that were tracked there and that nobody has seen done,
each once, and the new write, which is not done. One that is done is one that is done unnoticed. So
there are at most as many as writes that are queued and writes that are done unnoticed, and at most as
many others as calls that cached the code and did not wait. -/
theorem tracked_after_set {host : Host} {lifetime size : Nat} {steps : List Step}
    (run : Runs (.start host lifetime size) steps g)
    (launched : (g.set kind user codes ttl).1 = some (some id)) (hc : code ∈ codes) :
    let key := kind.indexKey code
    let u := (g.set kind user codes ttl).2.upkeep
    u.tracked key = g.upkeep.unseen key ++ [id] ∧ (u.tracked key).Nodup ∧ u.isDone id = false ∧
      (∀ other ∈ u.tracked key, u.isDone other = true → ∃ w ∈ u.unnoticed, w.id = other) ∧
      (u.tracked key).length ≤ u.queued.length + u.unnoticed.length ∧
      (u.tracked key).length ≤ (steps.countP fun s => s.move.drops kind code) + 1 := by
  intro key u
  have listed : g.upkeep.Listed := run.listed Upkeep.listed_empty
  have nodup := nodup_indexKeys kind codes
  have among : key ∈ codes.eraseDups.map fun code => kind.indexKey code := mem_indexKeys.2 ⟨rfl, hc⟩
  obtain ⟨nothing, -⟩ | ⟨number, after⟩ := upkeep_set kind user codes ttl g
  · exact absurd launched (nothing id)
  obtain rfl : id = g.upkeep.next := by simpa using launched.symm.trans number
  have after : u = (g.upkeep.launch user
    (codes.eraseDups.map fun code => kind.indexKey code)).2 := after
  have tracked : u.tracked key = g.upkeep.unseen key ++ [g.upkeep.next] := by
    have tracked := Upkeep.tracked_launch_eq listed nodup user key
    rw [if_pos among] at tracked
    rwa [after]
  -- What was seen done was pruned at the launch, so that all that is left is unseen.
  have unseen : u.unseen key = u.tracked key := by
    have unseen := Upkeep.unseen_launch listed nodup user key
    rw [if_pos among] at unseen
    rwa [tracked, after]
  have once : (u.tracked key).Nodup := by
    rw [after]
    exact (listed.launch nodup user).once key
  refine ⟨tracked, once, ?_, fun other hm done => ?_, ?_, ?_⟩
  · rw [after]
    exact (Upkeep.owes_launch listed.toSound user among).not_done
  · rw [← unseen] at hm
    exact Upkeep.exists_unnoticed (by simpa using (List.mem_filter.1 hm).2) done
  · rw [← unseen]
    exact Upkeep.length_unseen_le once
  -- The cache started without writes.
  · have dropped := run.length_unseen Upkeep.listed_empty kind code
    rw [show (Grants.start host lifetime size).upkeep.unseen _ = [] from rfl, List.length_nil,
      Nat.zero_add] at dropped
    rw [tracked, List.length_append]
    exact Nat.add_le_add_right dropped 1

/-- Ann's write was dropped and is done, Bob's was waited for: one caller has not waited. -/
theorem tracked_after_set_twice :
    ∃ g, Runs (.start ⟨0, {}, .bounded (.empty 16)⟩ 3600 100)
        [⟨.set .role "ann" ["dev"] none false, 0, true⟩, ⟨.work 0, 0, true⟩,
          ⟨.set .role "bob" ["dev"] none true, 0, true⟩] g ∧
      (g.set .role "cyd" ["dev"] none).1 = some (some 2) ∧
      ((g.set .role "cyd" ["dev"] none).2.upkeep.tracked (GrantKind.role.indexKey "dev")).length ≤
        2 := by
  have run : Runs (.start ⟨0, {}, .bounded (.empty 16)⟩ 3600 100)
      [⟨.set .role "ann" ["dev"] none false, 0, true⟩, ⟨.work 0, 0, true⟩,
        ⟨.set .role "bob" ["dev"] none true, 0, true⟩] _ :=
    .step trivial (.step trivial (.step trivial (.done _)))
  obtain ⟨-, -, -, -, -, bound⟩ := tracked_after_set run
    (by decide +kernel : (Grants.set .role "cyd" ["dev"] none _).1 = some (some 2))
    (List.mem_singleton_self "dev")
  exact ⟨_, run, by decide +kernel, bound⟩

/-- Nobody waits for Ann's write, which is done and stays tracked when Bob's is. Nothing but Bob's write
is queued. -/
theorem finished_write_stays_tracked :
    ∃ g, Runs (.start ⟨0, {}, .bounded (.empty 16)⟩ 3600 100)
        [⟨.set .role "ann" ["dev"] none false, 0, true⟩, ⟨.work 0, 0, true⟩] g ∧
      (g.set .role "bob" ["dev"] none).1 = some (some 1) ∧
      (g.set .role "bob" ["dev"] none).2.upkeep.tracked (GrantKind.role.indexKey "dev") = [0, 1] ∧
      (g.set .role "bob" ["dev"] none).2.upkeep.isDone 0 = true ∧
      (g.set .role "bob" ["dev"] none).2.upkeep.queued.length = 1 := by
  have run : Runs (.start ⟨0, {}, .bounded (.empty 16)⟩ 3600 100)
      [⟨.set .role "ann" ["dev"] none false, 0, true⟩, ⟨.work 0, 0, true⟩] _ :=
    .step trivial (.step trivial (.done _))
  exact ⟨_, run, by decide +kernel, by decide +kernel, by decide +kernel, by decide +kernel⟩

end GrantCache
