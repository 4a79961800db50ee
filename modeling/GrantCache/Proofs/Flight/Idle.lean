import GrantCache.Proofs.Flight.Line
import Mathlib.Data.List.Dedup
import Mathlib.Data.List.Induction

/-!
# Keys that nobody wants

A key goes into the file with the first claim on it and is to go out with the last one. The last claim
goes in one of two ways: it gives the lock back and finds that nobody else refers to the slot
(`Kept.references_eq_two_iff`), or it is cancelled when it has been handed the lock and has not noticed.
Somebody in line is never the last, since somebody else has the lock
(`Orderly.not_alone_of_queued`). The first way clears the file, the second does not
(`Kept.mem_idle_step`), so the keys that stay in the file without a claim are those that were abandoned
the second way and not claimed since (`mem_idle_play`).

A `Turn` puts together the steps between which nobody else acts. After a turn nobody is about to ask
for a lock or about to go (`AtRest.take`).
-/

namespace GrantCache.Flight

/-- The keys that claims are on. -/
def claimed (f : Flight) : List String := f.claims.map (·.key)

/-- The keys in the file that no claim is on. -/
def idle (f : Flight) : List String := f.slots.keys.filter (· ∉ f.claimed)

/-- No other claim is on the key of this one. -/
def Alone (f : Flight) (c : Claim) : Prop := ∀ d ∈ f.claims, d.key = c.key → d = c

/-- The step cancels a claim that was handed the lock, and no other claim is on its key. -/
def Abandons (f : Flight) (key : String) (m : Move) : Prop :=
  ∃ c ∈ f.claims, m = .cancel c.id ∧ c.stage = .granted ∧ c.key = key ∧ f.Alone c

/-- In the course of these steps the key was abandoned, and nobody has claimed it since. -/
inductive Abandoned (key : String) : List Move → Prop where
  | now {moves : List Move} {m : Move} (last : (({} : Flight).play moves).Abandons key m) :
      Abandoned key (moves ++ [m])
  | before {moves : List Move} {m : Move} (then_ : Abandoned key moves)
      (unclaimed : key ∉ (({} : Flight).play (moves ++ [m])).claimed) : Abandoned key (moves ++ [m])

variable {f : Flight} {c d : Claim} {id key : String} {slot : Nat} {stage : Stage} {m : Move}

theorem mem_claimed : key ∈ f.claimed ↔ ∃ c ∈ f.claims, c.key = key := List.mem_map

theorem mem_claimed_of_mem (hc : c ∈ f.claims) : c.key ∈ f.claimed := List.mem_map_of_mem hc

theorem mem_idle : key ∈ f.idle ↔ key ∈ f.slots.keys ∧ key ∉ f.claimed := by simp [idle]

/-! ## The keys of the claims through a step -/

theorem claimed_place (id : String) (stage : Stage) (f : Flight) :
    (f.place id stage).claimed = f.claimed := by
  rw [claimed, claimed, place, List.map_map]
  refine List.map_congr_left fun c _ => ?_
  by_cases own : c.id = id <;> simp [own]

theorem claimed_handOver (slot : Nat) (f : Flight) : (f.handOver slot).claimed = f.claimed := by
  obtain ⟨same, _⟩ | ⟨first, _, _, _, handed⟩ := f.handOver_cases slot
  · rw [same]
  · rw [handed, claimed_place]

/-- When a claim goes, the others are on the keys that they were on. -/
theorem Filed.mem_claimed_withdraw (h : Filed f) (hc : c ∈ f.claims) :
    key ∈ (f.withdraw c.id).claimed ↔ key ∈ f.claimed ∧ ¬ (f.Alone c ∧ key = c.key) := by
  rw [mem_claimed, mem_claimed]
  constructor
  · rintro ⟨d, hd, rfl⟩
    obtain ⟨hd, other⟩ := mem_withdraw.1 hd
    refine ⟨⟨d, hd, rfl⟩, fun last => other ?_⟩
    rw [last.1 d hd last.2]
  · rintro ⟨⟨d, hd, rfl⟩, stays⟩
    by_cases same : d.id = c.id
    · -- The claim itself goes, but it is not alone on its key.
      obtain rfl := h.eq_of_id hd hc same
      have notAlone : ¬ f.Alone d := fun last => stays ⟨last, rfl⟩
      simp only [Alone, not_forall] at notAlone
      obtain ⟨e, he, own, other⟩ := notAlone
      exact ⟨e, mem_withdraw.2 ⟨he, fun same => other (h.eq_of_id he hc same)⟩, own⟩
    · exact ⟨d, mem_withdraw.2 ⟨hd, same⟩, rfl⟩

theorem claimed_concat (f : Flight) (c : Claim) :
    ({ f with claims := f.claims ++ [c] } : Flight).claimed = f.claimed ++ [c.key] := by
  rw [claimed, List.map_append]
  rfl

theorem Filed.mem_claimed_join (h : Filed f) (id : String) :
    key ∈ (f.join id).claimed ↔ key ∈ f.claimed := by
  obtain same | ⟨c, hc, rfl, _, joined⟩ := f.join_cases id
  · rw [same]
  · have back := claimed_concat (f.withdraw c.id)
      { c with stage := if f.isLocked c.slot then .queued else .owning }
    have own := mem_claimed_of_mem hc
    rw [joined]
    refine (Iff.of_eq (congrArg (key ∈ ·) back)).trans ?_
    rw [List.mem_append, List.mem_singleton, h.mem_claimed_withdraw hc]
    constructor
    · rintro (⟨old, _⟩ | rfl)
      · exact old
      · exact own
    · intro old
      by_cases same : key = c.key
      · exact .inr same
      · exact .inl ⟨old, fun last => same last.2⟩

theorem claimed_run (id : String) (f : Flight) : (f.run id).claimed = f.claimed := by
  obtain same | ⟨c, _, _, _, ran⟩ := f.run_cases id
  · rw [same]
  · rw [ran, claimed_place]

theorem claimed_unlock (id : String) (f : Flight) : (f.unlock id).claimed = f.claimed := by
  obtain same | ⟨c, _, _, _, unlocked⟩ := f.unlock_cases id
  · rw [same]
  · rw [unlocked, claimed_handOver, claimed_place]

/-! ## The file through a step -/

/-- Orderly, and the file lists its keys in order. -/
structure Kept (f : Flight) : Prop extends Orderly f where
  sorted : f.slots.Sorted

theorem kept_empty : Kept {} := ⟨orderly_empty, Catalog.sorted_nil⟩

theorem slots_join (id : String) (f : Flight) : (f.join id).slots = f.slots := by
  obtain same | ⟨c, _, _, _, joined⟩ := f.join_cases id
  · rw [same]
  · rw [joined]

theorem slots_run (id : String) (f : Flight) : (f.run id).slots = f.slots := by
  obtain same | ⟨c, _, _, _, ran⟩ := f.run_cases id
  · rw [same]
  · rw [ran]
    rfl

theorem slots_unlock (id : String) (f : Flight) : (f.unlock id).slots = f.slots := by
  obtain same | ⟨c, _, _, _, unlocked⟩ := f.unlock_cases id
  · rw [same]
  · rw [unlocked, slots_handOver]
    rfl

/-- A cancelled claim leaves the file as it is: only an owner that goes takes its key out. -/
theorem slots_cancel (id : String) (f : Flight) : (f.cancel id).slots = f.slots := by
  obtain same | ⟨c, _, _, ⟨_, cancelled⟩ | ⟨_, cancelled⟩⟩ := f.cancel_cases id
  · rw [same]
  · rw [cancelled]
    rfl
  · rw [cancelled, slots_handOver]
    rfl

/-- Who arrives claims a key that is in the file already or comes into it. -/
theorem arrive_cases (id key : String) (f : Flight) : f.arrive id key = f ∨
    (f.arrive id key).claimed = f.claimed ++ [key] ∧
      ((f.arrive id key).slots = f.slots ∧ key ∈ f.slots.keys ∨
        (f.arrive id key).slots = f.slots.insert key f.next) := by
  rw [Flight.arrive]
  split
  · exact .inl rfl
  · split
    · rename_i slot filed
      refine .inr ⟨claimed_concat f _, .inl ⟨rfl, ?_⟩⟩
      exact List.mem_map_of_mem (Catalog.mem_of_find? filed)
    · exact .inr ⟨claimed_concat { f with next := _, slots := _ } _, .inr rfl⟩

theorem Kept.step (h : Kept f) (m : Move) : Kept (f.step m) := by
  refine ⟨h.toOrderly.step m, ?_⟩
  cases m with
  | arrive id key =>
    rw [Flight.step]
    obtain same | ⟨_, ⟨same, _⟩ | filed⟩ := f.arrive_cases id key
    · rw [same]
      exact h.sorted
    · rw [same]
      exact h.sorted
    · rw [filed]
      exact h.sorted.insert key f.next
  -- Only who arrives and who forgets changes what is filed.
  | join id => exact f.slots_join id ▸ h.sorted
  | run id => exact f.slots_run id ▸ h.sorted
  | unlock id => exact f.slots_unlock id ▸ h.sorted
  | cancel id => exact f.slots_cancel id ▸ h.sorted
  | forget id =>
    rw [Flight.step]
    obtain same | ⟨c, _, _, _, forgotten⟩ := f.forget_cases id
    · rw [same]
      exact h.sorted
    · rw [forgotten]
      by_cases two : f.references c.slot = 2
      · simp only [if_pos two]
        exact h.sorted.erase c.key
      · simp only [if_neg two]
        exact h.sorted

/-- A flight is in order after any steps. -/
theorem Kept.play (h : Kept f) (moves : List Move) : Kept (f.play moves) := by
  induction moves generalizing f with
  | nil => exact h
  | cons m moves ih => exact ih (h.step m)

theorem Kept.nodup_keys (h : Kept f) : f.slots.keys.Nodup := by
  refine List.pairwise_map.2 (List.Pairwise.imp ?_ h.sorted)
  intro a b lt same
  exact String.lt_irrefl b.1 (same ▸ lt)

/-- Who is about to go and finds two references to the slot is alone on the key, and conversely. -/
theorem Kept.references_eq_two_iff (h : Kept f) (hc : c ∈ f.claims) (leaving : c.stage = .leaving) :
    f.references c.slot = 2 ↔ f.Alone c := by
  constructor
  · intro two d hd same
    exact h.alone_of_references hc hd two ((h.key_eq_iff hd hc).1 same)
  · intro alone
    -- One reference is the one of the file, and the other the one of the claim itself.
    have byFile : f.slots.filter (·.2 = c.slot) = [(c.key, c.slot)] := by
      refine eq_singleton_of_nodup ((List.Nodup.of_map _ h.nodup_keys).filter _) ?_
      rintro ⟨key, slot⟩
      simp only [List.mem_filter, decide_eq_true_eq, Prod.mk.injEq]
      constructor
      · rintro ⟨filed, rfl⟩
        exact ⟨h.apart _ _ _ (Catalog.find?_of_mem h.nodup_keys filed) (h.filed c hc), rfl⟩
      · rintro ⟨rfl, rfl⟩
        exact ⟨Catalog.mem_of_find? (h.filed c hc), rfl⟩
    have byClaims : f.claims.filter (·.slot = c.slot) = [c] := by
      refine eq_singleton_of_nodup ((List.Nodup.of_map _ h.ids).filter _) fun d => ?_
      simp only [List.mem_filter, decide_eq_true_eq]
      constructor
      · rintro ⟨hd, same⟩
        exact alone d hd ((h.key_eq_iff hd hc).2 same)
      · rintro rfl
        exact ⟨hc, rfl⟩
    rw [references, byFile, byClaims, List.map_singleton, leaving]
    rfl

/-! ## Idle keys through a step -/

/-- What leaves the file as it is and the claims on the same keys leaves the same keys idle. -/
theorem mem_idle_of_same {f' : Flight} (slots : f'.slots = f.slots)
    (claimed : key ∈ f'.claimed ↔ key ∈ f.claimed) :
    key ∈ f'.idle ↔ key ∈ f.idle ∧ key ∉ f'.claimed := by
  rw [mem_idle, mem_idle, slots, claimed]
  tauto

/-- A key that is claimed again is not idle any more. -/
theorem mem_idle_arrive (id key' : String) (f : Flight) : key ∈ (f.arrive id key').idle ↔
    key ∈ f.idle ∧ key ∉ (f.arrive id key').claimed := by
  obtain same | ⟨claimed, slots⟩ := f.arrive_cases id key'
  · exact mem_idle_of_same (congrArg slots same) (by rw [same])
  · have file : key ∈ (f.arrive id key').slots.keys ↔ key ∈ f.slots.keys ∨ key = key' := by
      obtain ⟨same, filed⟩ | new := slots
      · rw [same]
        refine ⟨.inl, ?_⟩
        rintro (old | rfl)
        · exact old
        · exact filed
      · rw [new, Catalog.mem_keys_insert, or_comm]
    rw [mem_idle, mem_idle, file, claimed, List.mem_append, List.mem_singleton]
    tauto

/-- Who goes takes the key out of the file if no other claim is on it. -/
theorem Kept.mem_idle_forget (h : Kept f) (id : String) : key ∈ (f.forget id).idle ↔
    key ∈ f.idle ∧ key ∉ (f.forget id).claimed := by
  obtain same | ⟨c, hc, rfl, leaving, forgotten⟩ := f.forget_cases id
  · exact mem_idle_of_same (congrArg slots same) (by rw [same])
  · have left : key ∈ (f.forget c.id).claimed ↔ key ∈ f.claimed ∧ ¬ (f.Alone c ∧ key = c.key) := by
      rw [forgotten]
      exact h.mem_claimed_withdraw hc
    have two := h.references_eq_two_iff hc leaving
    by_cases alone : f.Alone c
    · have slots : (f.forget c.id).slots = f.slots.erase c.key := by
        rw [forgotten, if_pos (two.2 alone)]
      have own := mem_claimed_of_mem hc
      rw [mem_idle, mem_idle, slots, left, Catalog.mem_keys_erase]
      by_cases same : key = c.key
      · simp [same, own]
      · simp [same]
    · have slots : (f.forget c.id).slots = f.slots := by
        rw [forgotten, if_neg (mt two.1 alone)]
      exact mem_idle_of_same slots (by rw [left]; tauto)

/-- A claim that is cancelled after it was handed the lock hands it on. -/
theorem Filed.cancel_of_granted (h : Filed f) (hc : c ∈ f.claims) (granted : c.stage = .granted) :
    f.cancel c.id = (f.withdraw c.id).handOver c.slot := by
  obtain ⟨id, key, slot, stage⟩ := c
  obtain rfl : stage = .granted := granted
  simp only [Flight.cancel, h.claim?_eq hc]

/-- Somebody in line is not alone: somebody else has the lock. -/
theorem Orderly.not_alone_of_queued (h : Orderly f) (hc : c ∈ f.claims) (queued : c.stage = .queued) :
    ¬ f.Alone c := by
  intro alone
  obtain ⟨holder, hh, slot, lock⟩ := h.served c hc queued
  rw [alone holder hh ((h.key_eq_iff hh hc).2 slot), queued] at lock
  cases lock

/-- A key becomes idle when its last claim is cancelled after the lock was handed to it. -/
theorem Kept.mem_idle_cancel (h : Kept f) (id : String) : key ∈ (f.cancel id).idle ↔
    f.Abandons key (.cancel id) ∨ key ∈ f.idle ∧ key ∉ (f.cancel id).claimed := by
  by_cases abandons : f.Abandons key (.cancel id)
  · refine iff_of_true ?_ (.inl abandons)
    obtain ⟨c, hc, same, granted, rfl, alone⟩ := abandons
    obtain rfl := Move.cancel.inj same
    rw [mem_idle, slots_cancel, h.cancel_of_granted hc granted, claimed_handOver,
      h.mem_claimed_withdraw hc]
    exact ⟨List.mem_map_of_mem (Catalog.mem_of_find? (h.filed c hc)), fun left => left.2 ⟨alone, rfl⟩⟩
  · rw [or_iff_right abandons]
    refine mem_idle_of_same (f.slots_cancel id) ?_
    obtain same | ⟨c, hc, rfl, ⟨queued, cancelled⟩ | ⟨granted, cancelled⟩⟩ := f.cancel_cases id
    · rw [same]
    · rw [cancelled, h.mem_claimed_withdraw hc]
      exact and_iff_left fun last => h.not_alone_of_queued hc queued last.1
    · rw [cancelled, claimed_handOver, h.mem_claimed_withdraw hc]
      exact and_iff_left fun last => abandons ⟨c, hc, rfl, granted, last.2.symm, last.1⟩

/-- A key is idle after a step if the step abandons it, or if it was idle and no claim is on it. -/
theorem Kept.mem_idle_step (h : Kept f) (m : Move) : key ∈ (f.step m).idle ↔
    f.Abandons key m ∨ key ∈ f.idle ∧ key ∉ (f.step m).claimed := by
  have onlyCancels (other : ∀ id, m ≠ .cancel id) : ¬ f.Abandons key m := by
    rintro ⟨c, _, same, _⟩
    exact other c.id same
  cases m with
  | arrive id key' =>
    rw [or_iff_right (onlyCancels (by simp))]
    exact f.mem_idle_arrive id key'
  | join id =>
    rw [or_iff_right (onlyCancels (by simp))]
    exact mem_idle_of_same (f.slots_join id) (h.mem_claimed_join id)
  | run id =>
    rw [or_iff_right (onlyCancels (by simp))]
    exact mem_idle_of_same (f.slots_run id) (by rw [Flight.step, claimed_run])
  | unlock id =>
    rw [or_iff_right (onlyCancels (by simp))]
    exact mem_idle_of_same (f.slots_unlock id) (by rw [Flight.step, claimed_unlock])
  | forget id =>
    rw [or_iff_right (onlyCancels (by simp))]
    exact h.mem_idle_forget id
  | cancel id => exact h.mem_idle_cancel id

/-! ## Runs -/

theorem play_concat (f : Flight) (moves : List Move) (m : Move) :
    f.play (moves ++ [m]) = (f.play moves).step m := List.foldl_concat ..

theorem not_abandoned_nil : ¬ Abandoned key [] := by
  intro h
  generalize none : ([] : List Move) = moves at h
  cases h <;> simp at none

/-- A key stands abandoned after one more step if that step abandons it, or if it was abandoned before
and still nobody claims it. -/
theorem abandoned_concat {moves : List Move} : Abandoned key (moves ++ [m]) ↔
    (({} : Flight).play moves).Abandons key m ∨
      Abandoned key moves ∧ key ∉ (({} : Flight).play (moves ++ [m])).claimed := by
  constructor
  · intro h
    generalize all : moves ++ [m] = moves' at h
    cases h with
    | now last =>
      obtain ⟨rfl, rfl⟩ := List.append_singleton_inj.1 all
      exact .inl last
    | before then_ unclaimed =>
      obtain ⟨rfl, rfl⟩ := List.append_singleton_inj.1 all
      exact .inr ⟨then_, unclaimed⟩
  · rintro (last | ⟨then_, unclaimed⟩)
    · exact .now last
    · exact .before then_ unclaimed

/-- The keys that are idle are the abandoned ones. -/
theorem mem_idle_play (moves : List Move) :
    key ∈ (({} : Flight).play moves).idle ↔ Abandoned key moves := by
  induction moves using List.reverseRecOn with
  | nil => exact iff_of_false (by simp [mem_idle, play, Catalog.keys]) not_abandoned_nil
  | append_singleton moves m ih =>
    rw [abandoned_concat, play_concat, (kept_empty.play moves).mem_idle_step, ih]

/-- In the file are the keys that claims are on and the idle ones. -/
theorem Kept.inFlight_eq (h : Kept f) : f.inFlight = f.claimed.dedup.length + f.idle.length := by
  have claimed : (f.slots.keys.filter (· ∈ f.claimed)).Perm f.claimed.dedup := by
    refine (List.perm_ext_iff_of_nodup (h.nodup_keys.filter _) (List.nodup_dedup _)).2 fun key => ?_
    rw [List.mem_filter, List.mem_dedup, decide_eq_true_eq]
    refine and_iff_right_of_imp fun own => ?_
    obtain ⟨c, hc, rfl⟩ := mem_claimed.1 own
    exact List.mem_map_of_mem (Catalog.mem_of_find? (h.filed c hc))
  have parts := List.length_eq_countP_add_countP (· ∈ f.claimed) (l := f.slots.keys)
  rw [List.countP_eq_length_filter, claimed.length_eq, List.countP_eq_length_filter] at parts
  have all : f.slots.keys.length = f.slots.length := List.length_map ..
  rw [inFlight, ← all, parts, idle]
  simp

/-! ## Between turns -/

/-- What a caller does until others may act. -/
inductive Turn where
  /-- Ask for a key: the lock is taken, or the caller is in line. -/
  | acquire (id key : String)
  /-- Notice that the lock was handed over. -/
  | run (id : String)
  | drop (id : String)
  | cancel (id : String)
deriving DecidableEq

def Turn.moves : Turn → List Move
  | acquire id key => [.arrive id key, .join id]
  | run id => [.run id]
  | drop id => [.unlock id, .forget id]
  | cancel id => [.cancel id]

/-- Every claim waits in line, was handed the lock or owns it. -/
def AtRest (f : Flight) : Prop := ∀ c ∈ f.claims, c.stage.isInLine = true

theorem mem_handOver (hd : d ∈ (f.handOver slot).claims) : d.stage = .granted ∨ d ∈ f.claims := by
  obtain ⟨same, _⟩ | ⟨first, _, _, _, handed⟩ := f.handOver_cases slot
  · rw [same] at hd
    exact .inr hd
  · rw [handed] at hd
    rcases mem_place.1 hd with ⟨old, _, _, rfl⟩ | ⟨hd, _⟩
    · exact .inl rfl
    · exact .inr hd

theorem AtRest.handOver (h : AtRest f) (slot : Nat) : AtRest (f.handOver slot) := by
  intro d hd
  rcases mem_handOver hd with granted | old
  · rw [granted]
    rfl
  · exact h d old

theorem AtRest.withdraw (h : AtRest f) (id : String) : AtRest (f.withdraw id) :=
  fun d hd => h d (mem_withdraw.1 hd).1

theorem AtRest.run (h : AtRest f) (id : String) : AtRest (f.run id) := by
  obtain same | ⟨c, hc, rfl, _, ran⟩ := f.run_cases id
  · rw [same]
    exact h
  · rw [ran]
    intro d hd
    rcases mem_place.1 hd with ⟨old, _, _, rfl⟩ | ⟨hd, _⟩
    · rfl
    · exact h d hd

theorem AtRest.cancel (h : AtRest f) (id : String) : AtRest (f.cancel id) := by
  obtain same | ⟨c, _, rfl, ⟨_, cancelled⟩ | ⟨_, cancelled⟩⟩ := f.cancel_cases id
  · rw [same]
    exact h
  · rw [cancelled]
    exact h.withdraw c.id
  · rw [cancelled]
    exact (h.withdraw c.id).handOver c.slot

theorem AtRest.stage_ne (h : AtRest f) (hc : c ∈ f.claims) (stage : Stage)
    (out : stage.isInLine = false) : c.stage ≠ stage := by
  rintro rfl
  rw [h c hc] at out
  cases out

/-- Who has just arrived takes the lock or gets in line, and then is like the others. -/
theorem AtRest.join {f' : Flight} (filed : Filed f') {c : Claim} (hc : c ∈ f'.claims)
    (arrived : c.stage = .arrived) (others : ∀ d ∈ f'.claims, d.id ≠ c.id → d.stage.isInLine = true) :
    AtRest (f'.join c.id) := by
  have found : f'.claimAt? .arrived c.id = some c := by
    rw [claimAt?, filed.claim?_eq hc, Option.filter_some, if_pos (decide_eq_true arrived)]
  simp only [Flight.join, found]
  intro d hd
  rcases List.mem_append.1 hd with old | last
  · obtain ⟨hd, other⟩ := mem_withdraw.1 old
    exact others d hd other
  · rw [List.mem_singleton.1 last]
    by_cases locked : f'.isLocked c.slot <;> simp [locked, Stage.isInLine]

/-- Who arrives asks for the lock in the same turn. -/
theorem AtRest.acquire (h : AtRest f) (orderly : Orderly f) (id key : String) :
    AtRest ((f.arrive id key).join id) := by
  have filed := (orderly.arrive id key).toFiled
  cases found : f.claim? id with
  | some c =>
    -- Who has a claim already does not get another.
    have same : f.arrive id key = f := by simp [Flight.arrive, found]
    rw [same]
    obtain same | ⟨c, hc, rfl, arrived, _⟩ := f.join_cases id
    · rw [same]
      exact h
    · exact (h.stage_ne hc .arrived rfl arrived).elim
  | none =>
    have claims : ∃ slot, (f.arrive id key).claims = f.claims ++ [⟨id, key, slot, .arrived⟩] := by
      rw [Flight.arrive, found]
      simp only [Option.isSome_none, Bool.false_eq_true, if_false]
      split
      · exact ⟨_, rfl⟩
      · exact ⟨_, rfl⟩
    obtain ⟨slot, claims⟩ := claims
    refine AtRest.join (c := ⟨id, key, slot, .arrived⟩) filed (by simp [claims]) rfl ?_
    intro d hd other
    rw [claims] at hd
    rcases List.mem_append.1 hd with old | last
    · exact h d old
    · rw [List.mem_singleton.1 last] at other
      exact (other rfl).elim

/-- Who gives the lock back is gone in the same turn. -/
theorem AtRest.drop (h : AtRest f) (orderly : Orderly f) (id : String) :
    AtRest ((f.unlock id).forget id) := by
  obtain same | ⟨c, hc, rfl, owning, unlocked⟩ := f.unlock_cases id
  · rw [same]
    obtain same | ⟨c, hc, rfl, leaving, _⟩ := f.forget_cases id
    · rw [same]
      exact h
    · exact (h.stage_ne hc .leaving rfl leaving).elim
  · have filed := orderly.toFiled.place c.id .leaving
    have leaving : (f.place c.id .leaving).stage? c.id = some .leaving := by
      rw [stage?_place, if_pos rfl, orderly.stage?_eq hc, Option.map_some]
    -- The lock goes to somebody in line, who is not the one that leaves.
    have still : (f.unlock c.id).stage? c.id = some .leaving := by
      rw [unlocked]
      rcases filed.stage?_handOver c.slot c.id with same | ⟨queued, _⟩
      · rw [same, leaving]
      · cases leaving.symm.trans queued
    obtain ⟨_, _, _, _, found⟩ := claimAt?_of_stage? still
    simp only [Flight.forget, found]
    intro d hd
    obtain ⟨hd, other⟩ := mem_withdraw.1 hd
    rw [unlocked] at hd
    rcases mem_handOver hd with granted | hd
    · rw [granted]
      rfl
    · rcases mem_place.1 hd with ⟨old, _, own, rfl⟩ | ⟨hd, _⟩
      · exact (other own).elim
      · exact h d hd

/-- Nobody is left between two steps of one turn. -/
theorem AtRest.take (h : AtRest f) (orderly : Orderly f) (t : Turn) : AtRest (f.play t.moves) := by
  cases t with
  | acquire id key => exact h.acquire orderly id key
  | run id => exact h.run id
  | drop id => exact h.drop orderly id
  | cancel id => exact h.cancel id

/-- After any number of turns nobody is about to ask for a lock or about to go. -/
theorem AtRest.takeAll (h : AtRest f) (orderly : Orderly f) (turns : List Turn) :
    AtRest (f.play (turns.flatMap Turn.moves)) := by
  induction turns generalizing f with
  | nil => exact h
  | cons t turns ih =>
    rw [List.flatMap_cons, play, List.foldl_append]
    exact ih (h.take orderly t) (orderly.play t.moves)

/-- Whatever turns callers take, in whatever order and on whatever keys, once a turn is over:

* everybody who has a claim waits, was handed the lock or owns it, and the key is in the file;
* a key in the file has nobody exactly if it was abandoned: the last claim on it was cancelled when it
  had been handed the lock and had not noticed, and nobody has come for the key since;
* the keys in flight are those with an owner or somebody waiting, and the abandoned ones. -/
theorem idle_iff_abandoned (turns : List Turn) :
    let moves := turns.flatMap Turn.moves
    let f := ({} : Flight).play moves
    (∀ c ∈ f.claims, c.stage.isInLine = true ∧ c.key ∈ f.slots.keys) ∧
    (∀ key, key ∈ f.idle ↔ Abandoned key moves) ∧
    f.inFlight = f.claimed.dedup.length + f.idle.length := by
  intro moves f
  have kept : Kept f := kept_empty.play moves
  have rest : AtRest f := AtRest.takeAll (f := {}) nofun orderly_empty turns
  refine ⟨fun c hc => ⟨rest c hc, ?_⟩, fun key => mem_idle_play moves, kept.inFlight_eq⟩
  exact List.mem_map_of_mem (Catalog.mem_of_find? (kept.filed c hc))

/-- Somebody waits behind an owner, is handed the lock when the owner goes, and gives up before noticing.
Nobody is there any more, and the key is still in the file. -/
theorem inFlight_after_cancelled_grant :
    let turns : List Turn := [.acquire "a" "k", .acquire "b" "k", .drop "a", .cancel "b"]
    let f := ({} : Flight).play (turns.flatMap Turn.moves)
    f.claims = [] ∧ f.inFlight = 1 := by decide +kernel

end GrantCache.Flight
