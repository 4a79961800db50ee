import GrantCache.Flight
import GrantCache.Proofs.Store.Live
import Mathlib.Data.List.Nodup

/-!
# One at a time

Whatever callers do and in whatever order their steps come, the lock of a key is with one claim at
most. What makes it so is that all claims on a key use the slot that is filed under it: a slot is taken
out of the file only by a claim that is the last to refer to it (`Filed.alone_of_references`), so no
newcomer gets another one while somebody is still there.

What each step can do is said once (`join_cases` and the like), and `Orderly` is what every step keeps
(`Orderly.step`). A lock is handed on in two steps, first nobody has it and then the first in line, and
`Unheld` is what holds in between (`Unheld.handOver`).
-/

namespace GrantCache.Flight

/-- All claims go by different ids and use the slots that are filed under their keys; no slot is filed
under two keys. -/
structure Filed (f : Flight) : Prop where
  ids : (f.claims.map (·.id)).Nodup
  filed : ∀ c ∈ f.claims, f.slots.find? c.key = some c.slot
  apart : ∀ k k' slot, f.slots.find? k = some slot → f.slots.find? k' = some slot → k = k'
  below : ∀ k slot, f.slots.find? k = some slot → slot < f.next

/-- Moreover the lock of a slot is with one claim at most, and nobody is in line for a lock that is
free. -/
structure Orderly (f : Flight) : Prop extends Filed f where
  single : ∀ c ∈ f.claims, ∀ c' ∈ f.claims, c.slot = c'.slot → c.stage.hasLock = true →
    c'.stage.hasLock = true → c = c'
  served : ∀ c ∈ f.claims, c.stage = .queued →
    ∃ c' ∈ f.claims, c'.slot = c.slot ∧ c'.stage.hasLock = true

variable {f : Flight} {c c' : Claim} {id key : String} {slot : Nat} {stage : Stage}

/-! ## Claims and slots -/

theorem Filed.eq_of_id (h : Filed f) (hc : c ∈ f.claims) (hc' : c' ∈ f.claims)
    (same : c.id = c'.id) : c = c' := List.inj_on_of_nodup_map h.ids hc hc' same

/-- Claims are on the same key exactly when they use the same slot. -/
theorem Filed.key_eq_iff (h : Filed f) (hc : c ∈ f.claims) (hc' : c' ∈ f.claims) :
    c.key = c'.key ↔ c.slot = c'.slot := by
  constructor
  · intro same
    have filed := h.filed c hc
    rw [same, h.filed c' hc'] at filed
    exact (Option.some.inj filed).symm
  · intro same
    refine h.apart _ _ _ (h.filed c hc) ?_
    rw [same]
    exact h.filed c' hc'

theorem mem_of_claim? (h : f.claim? id = some c) : c ∈ f.claims ∧ c.id = id :=
  ⟨List.mem_of_find?_eq_some h, by simpa [claim?] using List.find?_some h⟩

theorem mem_of_claimAt? (h : f.claimAt? stage id = some c) :
    c ∈ f.claims ∧ c.id = id ∧ c.stage = stage := by
  obtain ⟨found, at_⟩ := Option.filter_eq_some_iff.1 h
  obtain ⟨hc, own⟩ := mem_of_claim? found
  exact ⟨hc, own, of_decide_eq_true at_⟩

theorem Filed.claim?_eq (h : Filed f) (hc : c ∈ f.claims) : f.claim? c.id = some c := by
  cases found : f.claim? c.id with
  | none =>
    have other := List.find?_eq_none.1 found c hc
    simp at other
  | some c' =>
    obtain ⟨hc', same⟩ := mem_of_claim? found
    rw [h.eq_of_id hc' hc same]

theorem mem_withdraw : c ∈ (f.withdraw id).claims ↔ c ∈ f.claims ∧ c.id ≠ id := by
  simp [withdraw]

/-- A claim of which the stage is set is the old one with that stage, all others stay. -/
theorem mem_place : c ∈ (f.place id stage).claims ↔
    (∃ old ∈ f.claims, old.id = id ∧ c = { old with stage }) ∨ c ∈ f.claims ∧ c.id ≠ id := by
  simp only [place, List.mem_map]
  constructor
  · rintro ⟨old, hold, rfl⟩
    by_cases own : old.id = id
    · exact .inl ⟨old, hold, own, by simp [own]⟩
    · exact .inr (by simpa [own] using hold)
  · rintro (⟨old, hold, own, rfl⟩ | ⟨hc, other⟩)
    · exact ⟨old, hold, by simp [own]⟩
    · exact ⟨c, hc, by simp [other]⟩

theorem isLocked_iff : f.isLocked slot = true ↔
    ∃ c ∈ f.claims, c.slot = slot ∧ c.stage.hasLock = true := by
  simp [isLocked]

/-! ## What a step can do

A step that applies does so to a claim of the one who takes it. -/

/-- Handing a lock over does nothing when nobody waits for it; else the first in the queue gets it. -/
theorem handOver_cases (slot : Nat) (f : Flight) :
    (f.handOver slot = f ∧ ∀ c ∈ f.claims, c.stage = .queued → c.slot ≠ slot) ∨
      ∃ first ∈ f.claims, first.slot = slot ∧ first.stage = .queued ∧
        f.handOver slot = f.place first.id .granted := by
  cases found : f.claims.find? fun c => c.slot = slot && c.stage = .queued with
  | none =>
    refine .inl ⟨by simp only [Flight.handOver, found], fun c hc queued own => ?_⟩
    have other := List.find?_eq_none.1 found c hc
    simp [own, queued] at other
  | some first =>
    have waits : first.slot = slot ∧ first.stage = .queued := by simpa using List.find?_some found
    exact .inr ⟨first, List.mem_of_find?_eq_some found, waits.1, waits.2,
      by simp only [Flight.handOver, found]⟩

/-- Only a claim that has arrived joins the line. It gets the lock at once when that is free. -/
theorem join_cases (id : String) (f : Flight) : f.join id = f ∨
    ∃ c ∈ f.claims, c.id = id ∧ c.stage = .arrived ∧ f.join id =
      { f with claims := (f.withdraw id).claims ++
          [{ c with stage := if f.isLocked c.slot then .queued else .owning }] } := by
  cases found : f.claimAt? .arrived id with
  | none => exact .inl (by simp only [Flight.join, found])
  | some c =>
    obtain ⟨hc, own, here⟩ := mem_of_claimAt? found
    exact .inr ⟨c, hc, own, here, by simp only [Flight.join, found]⟩

/-- Only a claim that was handed the lock begins to own it. -/
theorem run_cases (id : String) (f : Flight) : f.run id = f ∨
    ∃ c ∈ f.claims, c.id = id ∧ c.stage = .granted ∧ f.run id = f.place id .owning := by
  cases found : f.claimAt? .granted id with
  | none => exact .inl (by simp only [Flight.run, found])
  | some c =>
    obtain ⟨hc, own, here⟩ := mem_of_claimAt? found
    exact .inr ⟨c, hc, own, here, by simp only [Flight.run, found]⟩

/-- Only an owner gives a lock back, and then it is handed over. -/
theorem unlock_cases (id : String) (f : Flight) : f.unlock id = f ∨
    ∃ c ∈ f.claims, c.id = id ∧ c.stage = .owning ∧
      f.unlock id = (f.place id .leaving).handOver c.slot := by
  cases found : f.claimAt? .owning id with
  | none => exact .inl (by simp only [Flight.unlock, found])
  | some c =>
    obtain ⟨hc, own, here⟩ := mem_of_claimAt? found
    exact .inr ⟨c, hc, own, here, by simp only [Flight.unlock, found]⟩

/-- Only a claim that is about to go is forgotten, and its key with it when nobody else refers to the
slot. -/
theorem forget_cases (id : String) (f : Flight) : f.forget id = f ∨
    ∃ c ∈ f.claims, c.id = id ∧ c.stage = .leaving ∧ f.forget id =
      { f.withdraw id with
        slots := if f.references c.slot = 2 then f.slots.erase c.key else f.slots } := by
  cases found : f.claimAt? .leaving id with
  | none => exact .inl (by simp only [Flight.forget, found])
  | some c =>
    obtain ⟨hc, own, here⟩ := mem_of_claimAt? found
    exact .inr ⟨c, hc, own, here, by simp only [Flight.forget, found]⟩

/-- A claim can be cancelled while it waits. If it was handed the lock meanwhile, the lock is handed
on. -/
theorem cancel_cases (id : String) (f : Flight) : f.cancel id = f ∨
    ∃ c ∈ f.claims, c.id = id ∧
      (c.stage = .queued ∧ f.cancel id = f.withdraw id ∨
        c.stage = .granted ∧ f.cancel id = (f.withdraw id).handOver c.slot) := by
  cases found : f.claim? id with
  | none => exact .inl (by simp only [Flight.cancel, found])
  | some c =>
    obtain ⟨hc, own⟩ := mem_of_claim? found
    obtain ⟨_, key, slot, stage⟩ := c
    cases stage with
    | queued => exact .inr ⟨_, hc, own, .inl ⟨rfl, by simp only [Flight.cancel, found]⟩⟩
    | granted => exact .inr ⟨_, hc, own, .inr ⟨rfl, by simp only [Flight.cancel, found]⟩⟩
    | arrived | owning | leaving => exact .inl (by simp only [Flight.cancel, found])

/-! ## Claims and their slots through a step -/

/-- Where the slots stay as they are it is enough that each claim was there, at whatever stage. -/
theorem Filed.restage (h : Filed f) {claims : List Claim} (ids : (claims.map (·.id)).Nodup)
    (old : ∀ c ∈ claims, ∃ c' ∈ f.claims, c'.key = c.key ∧ c'.slot = c.slot) :
    Filed { f with claims } := by
  refine ⟨ids, fun c hc => ?_, h.apart, h.below⟩
  obtain ⟨c', hc', key, slot⟩ := old c hc
  rw [← key, ← slot]
  exact h.filed c' hc'

theorem Filed.withdraw (h : Filed f) (id : String) : Filed (f.withdraw id) :=
  h.restage (h.ids.sublist (List.filter_sublist.map _)) fun c hc =>
    ⟨c, (mem_withdraw.1 hc).1, rfl, rfl⟩

theorem Filed.place (h : Filed f) (id : String) (stage : Stage) : Filed (f.place id stage) := by
  refine h.restage ?_ fun c hc => ?_
  · have same : (f.place id stage).claims.map (·.id) = f.claims.map (·.id) := by
      rw [Flight.place, List.map_map]
      refine List.map_congr_left fun c _ => ?_
      by_cases own : c.id = id <;> simp [own]
    show ((f.place id stage).claims.map (·.id)).Nodup
    rw [same]
    exact h.ids
  · rcases mem_place.1 hc with ⟨old, hold, _, rfl⟩ | ⟨hc, _⟩
    · exact ⟨old, hold, rfl, rfl⟩
    · exact ⟨c, hc, rfl, rfl⟩

/-! ## Handing over -/

/-- Orderly, but that the lock of one slot is with nobody, while others may be in line for it. -/
structure Unheld (slot : Nat) (f : Flight) : Prop extends Filed f where
  single : ∀ c ∈ f.claims, ∀ c' ∈ f.claims, c.slot = c'.slot → c.stage.hasLock = true →
    c'.stage.hasLock = true → c = c'
  free : ∀ c ∈ f.claims, c.slot = slot → c.stage.hasLock = false
  served : ∀ c ∈ f.claims, c.stage = .queued → c.slot ≠ slot →
    ∃ c' ∈ f.claims, c'.slot = c.slot ∧ c'.stage.hasLock = true

/-- The first in line gets the lock, and then everything is in order. -/
theorem Unheld.handOver (h : Unheld slot f) : Orderly (f.handOver slot) := by
  obtain ⟨same, nobody⟩ | ⟨first, hfirst, own, queued, handed⟩ := f.handOver_cases slot
  · rw [same]
    exact ⟨h.toFiled, h.single, fun c hc queued => h.served c hc queued (nobody c hc queued)⟩
  · rw [handed]
    refine ⟨h.toFiled.place _ _, fun c hc c' hc' same lock lock' => ?_, fun c hc waits => ?_⟩
    · rcases mem_place.1 hc with ⟨old, hold, hid, rfl⟩ | ⟨hc, hid⟩
      · obtain rfl := h.eq_of_id hold hfirst hid
        rcases mem_place.1 hc' with ⟨old', hold', hid', rfl⟩ | ⟨hc', hid'⟩
        · rw [h.eq_of_id hold' hold hid']
        · cases (h.free c' hc' (same.symm.trans own)).symm.trans lock'
      · rcases mem_place.1 hc' with ⟨old', hold', hid', rfl⟩ | ⟨hc', hid'⟩
        · have waiting := h.eq_of_id hold' hfirst hid'
          cases (h.free c hc (same.trans (by rw [waiting, own]))).symm.trans lock
        · exact h.single c hc c' hc' same lock lock'
    · rcases mem_place.1 hc with ⟨old, hold, hid, rfl⟩ | ⟨hc, hid⟩
      · cases waits
      · by_cases here : c.slot = slot
        · exact ⟨_, mem_place.2 (.inl ⟨first, hfirst, rfl, rfl⟩), own.trans here.symm, rfl⟩
        · obtain ⟨holder, hh, hslot, lock⟩ := h.served c hc waits here
          refine ⟨holder, mem_place.2 (.inr ⟨hh, fun same => ?_⟩), hslot, lock⟩
          -- Somebody in line does not hold the lock.
          rw [h.eq_of_id hh hfirst same, queued] at lock
          cases lock

/-- Who held the lock lets go of it, by leaving or by going away. -/
theorem Orderly.unheld {f' : Flight} (h : Orderly f) (hc : c ∈ f.claims)
    (lock : c.stage.hasLock = true) (filed : Filed f')
    (stay : ∀ d ∈ f.claims, d.id ≠ c.id → d ∈ f'.claims)
    (old : ∀ d ∈ f'.claims, d.stage = .leaving ∨ d ∈ f.claims ∧ d.id ≠ c.id) :
    Unheld c.slot f' := by
  refine ⟨filed, fun d hd d' hd' same hasLock hasLock' => ?_, fun d hd own => ?_,
    fun d hd queued other => ?_⟩
  · rcases old d hd with leaving | ⟨hd, _⟩
    · rw [leaving] at hasLock
      cases hasLock
    · rcases old d' hd' with leaving' | ⟨hd', _⟩
      · rw [leaving'] at hasLock'
        cases hasLock'
      · exact h.single d hd d' hd' same hasLock hasLock'
  · rcases old d hd with leaving | ⟨hd, hid⟩
    · rw [leaving]
      rfl
    · refine eq_false_of_ne_true fun hasLock => hid ?_
      rw [h.single d hd c hc own hasLock lock]
  · rcases old d hd with leaving | ⟨hd, _⟩
    · cases queued.symm.trans leaving
    · obtain ⟨holder, hh, hslot, hasLock⟩ := h.served d hd queued
      refine ⟨holder, stay holder hh fun same => other ?_, hslot, hasLock⟩
      rw [← hslot, h.eq_of_id hh hc same]

/-! ## Every step keeps order -/

theorem orderly_empty : Orderly {} :=
  ⟨⟨List.nodup_nil, nofun, nofun, nofun⟩, nofun, nofun⟩

/-- A claim without the lock can go without harm. -/
theorem Orderly.withdraw (h : Orderly f) (hc : c ∈ f.claims) (noLock : c.stage.hasLock = false) :
    Orderly (f.withdraw c.id) := by
  refine ⟨h.toFiled.withdraw _, fun d hd d' hd' => ?_, fun d hd queued => ?_⟩
  · exact h.single d (mem_withdraw.1 hd).1 d' (mem_withdraw.1 hd').1
  · obtain ⟨holder, hh, hslot, lock⟩ := h.served d (mem_withdraw.1 hd).1 queued
    refine ⟨holder, mem_withdraw.2 ⟨hh, fun same => ?_⟩, hslot, lock⟩
    rw [h.eq_of_id hh hc same, noLock] at lock
    cases lock

/-- A claim that is added, by one who has none, changes nothing for the others as long as it does not
hold a lock that somebody has, and waits for one only if somebody has it. -/
theorem Orderly.concat (h : Orderly f) (new : ∀ d ∈ f.claims, d.id ≠ c.id)
    (filed : f.slots.find? c.key = some c.slot)
    (free : c.stage.hasLock = true → f.isLocked c.slot = false)
    (line : c.stage = .queued → f.isLocked c.slot = true) :
    Orderly { f with claims := f.claims ++ [c] } := by
  -- The new claim and an old one cannot both have the lock of one slot.
  have taken (hasLock : c.stage.hasLock = true) {d : Claim} (hd : d ∈ f.claims)
      (same : d.slot = c.slot) (lock : d.stage.hasLock = true) : False := by
    cases (free hasLock).symm.trans (isLocked_iff.2 ⟨d, hd, same, lock⟩)
  refine ⟨⟨?_, fun d hd => ?_, h.apart, h.below⟩, fun d hd d' hd' same lock lock' => ?_,
    fun d hd queued => ?_⟩
  · rw [List.map_append, List.nodup_append]
    refine ⟨h.ids, List.nodup_singleton _, fun a ha b hb => ?_⟩
    obtain ⟨d, hd, rfl⟩ := List.mem_map.1 ha
    rw [List.mem_singleton.1 hb]
    exact new d hd
  · rcases List.mem_append.1 hd with old | last
    · exact h.filed d old
    · obtain rfl := List.mem_singleton.1 last
      exact filed
  · rcases List.mem_append.1 hd with old | last
    · rcases List.mem_append.1 hd' with old' | last'
      · exact h.single d old d' old' same lock lock'
      · obtain rfl := List.mem_singleton.1 last'
        exact (taken lock' old same lock).elim
    · obtain rfl := List.mem_singleton.1 last
      rcases List.mem_append.1 hd' with old' | last'
      · exact (taken lock old' same.symm lock').elim
      · exact (List.mem_singleton.1 last').symm
  · have holder : ∃ c' ∈ f.claims, c'.slot = d.slot ∧ c'.stage.hasLock = true := by
      rcases List.mem_append.1 hd with old | last
      · exact h.served d old queued
      · obtain rfl := List.mem_singleton.1 last
        exact isLocked_iff.1 (line queued)
    obtain ⟨c', hc', rest⟩ := holder
    exact ⟨c', List.mem_append_left _ hc', rest⟩

/-- A new slot under a key that has none. -/
theorem Orderly.file (h : Orderly f) (unfiled : f.slots.find? key = none) :
    Orderly { f with next := f.next + 1, slots := f.slots.insert key f.next } := by
  -- What is filed was filed before, with a smaller number, or is the new slot.
  have filed_or (k : String) (slot : Nat)
      (filed : (f.slots.insert key f.next).find? k = some slot) :
      k = key ∧ slot = f.next ∨ f.slots.find? k = some slot ∧ slot < f.next := by
    rw [Catalog.find?_insert] at filed
    split at filed
    · rename_i own
      exact .inl ⟨own.symm, (Option.some.inj filed).symm⟩
    · exact .inr ⟨filed, h.below k slot filed⟩
  refine ⟨⟨h.ids, fun c hc => ?_, fun k k' slot filed filed' => ?_, fun k slot filed => ?_⟩,
    h.single, h.served⟩
  · have other : key ≠ c.key := by
      rintro rfl
      cases unfiled.symm.trans (h.filed c hc)
    show (f.slots.insert key f.next).find? c.key = some c.slot
    rw [Catalog.find?_insert_of_ne other]
    exact h.filed c hc
  · rcases filed_or k slot filed with ⟨own, new⟩ | ⟨old, lt⟩
    · rcases filed_or k' slot filed' with ⟨own', _⟩ | ⟨_, lt'⟩
      · rw [own, own']
      · omega
    · rcases filed_or k' slot filed' with ⟨_, new'⟩ | ⟨old', _⟩
      · omega
      · exact h.apart k k' slot old old'
  · show slot < f.next + 1
    rcases filed_or k slot filed with ⟨_, new⟩ | ⟨_, lt⟩ <;> omega

/-- A slot that no claim uses may be taken out of the file. -/
theorem Orderly.unfile (h : Orderly f) (unused : ∀ c ∈ f.claims, c.key ≠ key) :
    Orderly { f with slots := f.slots.erase key } := by
  have filed_before (k : String) (slot : Nat) (filed : (f.slots.erase key).find? k = some slot) :
      f.slots.find? k = some slot := by
    by_cases own : key = k
    · rw [own, Catalog.find?_erase_self] at filed
      cases filed
    · rwa [Catalog.find?_erase_of_ne own] at filed
  refine ⟨⟨h.ids, fun c hc => ?_, fun k k' slot filed filed' => ?_, fun k slot filed => ?_⟩,
    h.single, h.served⟩
  · show (f.slots.erase key).find? c.key = some c.slot
    rw [Catalog.find?_erase_of_ne (unused c hc).symm]
    exact h.filed c hc
  · exact h.apart k k' slot (filed_before k slot filed) (filed_before k' slot filed')
  · exact h.below k slot (filed_before k slot filed)

/-- Every claim refers to its slot at least once. -/
theorem length_le_references (claims : List Claim) (n : Nat) :
    n + claims.length ≤ (claims.map (·.stage.references)).foldl (· + ·) n := by
  induction claims generalizing n with
  | nil => exact Nat.le_refl n
  | cons c claims ih =>
    have once : 1 ≤ c.stage.references := by cases c.stage <;> decide
    have rest := ih (n + c.stage.references)
    simp only [List.map_cons, List.foldl_cons, List.length_cons]
    omega

/-- If a slot is referred to twice, by the file and by one claim, no other claim uses it. -/
theorem Filed.alone_of_references (h : Filed f) (hc : c ∈ f.claims) (hc' : c' ∈ f.claims)
    (two : f.references c.slot = 2) (same : c'.slot = c.slot) : c' = c := by
  have inFile : (c.key, c.slot) ∈ f.slots.filter (·.2 = c.slot) :=
    List.mem_filter.2 ⟨Catalog.mem_of_find? (h.filed c hc), by simp⟩
  have byFile := List.length_pos_of_mem inFile
  have byClaims := length_le_references (f.claims.filter (·.slot = c.slot)) 0
  have user : c ∈ f.claims.filter (·.slot = c.slot) := List.mem_filter.2 ⟨hc, by simp⟩
  have user' : c' ∈ f.claims.filter (·.slot = c.slot) := List.mem_filter.2 ⟨hc', by simp [same]⟩
  rw [Flight.references] at two
  have one : (f.claims.filter (·.slot = c.slot)).length = 1 := by
    have := List.length_pos_of_mem user
    omega
  obtain ⟨only, users⟩ := List.length_eq_one_iff.1 one
  rw [users, List.mem_singleton] at user user'
  rw [user, user']

theorem ne_of_claim?_none (h : f.claim? id = none) : ∀ d ∈ f.claims, d.id ≠ id := by
  simpa [claim?] using h

theorem Orderly.arrive (h : Orderly f) (id key : String) : Orderly (f.arrive id key) := by
  unfold Flight.arrive
  split
  · exact h
  · rename_i absent
    have new := ne_of_claim?_none (Option.not_isSome_iff_eq_none.1 absent)
    split
    · rename_i slot filed
      exact h.concat (c := ⟨id, key, slot, .arrived⟩) new filed nofun nofun
    · rename_i unfiled
      refine (h.file unfiled).concat (c := ⟨id, key, f.next, .arrived⟩) new ?_ nofun nofun
      exact Catalog.find?_insert_self key f.next f.slots

/-- A lock is held as before when a claim without one goes. -/
theorem Orderly.isLocked_withdraw (h : Orderly f) (hc : c ∈ f.claims)
    (noLock : c.stage.hasLock = false) (slot : Nat) :
    (f.withdraw c.id).isLocked slot = f.isLocked slot := by
  rw [Bool.eq_iff_iff, isLocked_iff, isLocked_iff]
  constructor
  · rintro ⟨d, hd, rest⟩
    exact ⟨d, (mem_withdraw.1 hd).1, rest⟩
  · rintro ⟨d, hd, own, lock⟩
    refine ⟨d, mem_withdraw.2 ⟨hd, fun same => ?_⟩, own, lock⟩
    rw [h.eq_of_id hd hc same, noLock] at lock
    cases lock

/-- Who joins the line gets the lock only when nobody has it. -/
theorem Orderly.join (h : Orderly f) (id : String) : Orderly (f.join id) := by
  obtain same | ⟨c, hc, rfl, here, joined⟩ := f.join_cases id
  · rw [same]
    exact h
  · rw [joined]
    have noLock : c.stage.hasLock = false := by rw [here]; rfl
    refine (h.withdraw hc noLock).concat (fun d hd => (mem_withdraw.1 hd).2) (h.filed c hc)
      (fun lock => ?_) (fun queued => ?_)
    · rw [h.isLocked_withdraw hc noLock]
      refine eq_false_of_ne_true fun locked => ?_
      simp [locked, Stage.hasLock] at lock
    · rw [h.isLocked_withdraw hc noLock]
      by_contra free
      simp [free] at queued

/-- A claim may change its stage as long as it keeps what it has and does not get in line. -/
theorem Orderly.place (h : Orderly f) (hc : c ∈ f.claims)
    (keeps : stage.hasLock = c.stage.hasLock) (notInLine : stage ≠ .queued) :
    Orderly (f.place c.id stage) := by
  -- Every claim comes from one with the same slot and as much of a lock.
  have before {d : Claim} (hd : d ∈ (f.place c.id stage).claims) :
      ∃ old ∈ f.claims, old.id = d.id ∧ old.slot = d.slot ∧
        old.stage.hasLock = d.stage.hasLock := by
    rcases mem_place.1 hd with ⟨old, hold, hid, rfl⟩ | ⟨hd, _⟩
    · obtain rfl := h.eq_of_id hold hc hid
      exact ⟨old, hold, rfl, rfl, keeps.symm⟩
    · exact ⟨d, hd, rfl, rfl, rfl⟩
  have filed := h.toFiled.place c.id stage
  refine ⟨filed, fun d hd d' hd' same lock lock' => ?_, fun d hd queued => ?_⟩
  · obtain ⟨old, hold, hid, slot, has⟩ := before hd
    obtain ⟨old', hold', hid', slot', has'⟩ := before hd'
    refine filed.eq_of_id hd hd' ?_
    rw [← hid, ← hid', h.single old hold old' hold' (by rw [slot, slot', same]) (has.trans lock)
      (has'.trans lock')]
  · rcases mem_place.1 hd with ⟨old, hold, hid, rfl⟩ | ⟨hd, _⟩
    · exact (notInLine queued).elim
    · obtain ⟨holder, hh, hslot, lock⟩ := h.served d hd queued
      by_cases own : holder.id = c.id
      · obtain rfl := h.eq_of_id hh hc own
        exact ⟨_, mem_place.2 (.inl ⟨holder, hh, rfl, rfl⟩), hslot, keeps.trans lock⟩
      · exact ⟨holder, mem_place.2 (.inr ⟨hh, own⟩), hslot, lock⟩

theorem Orderly.run (h : Orderly f) (id : String) : Orderly (f.run id) := by
  obtain same | ⟨c, hc, rfl, here, ran⟩ := f.run_cases id
  · rw [same]
    exact h
  · rw [ran]
    exact h.place hc (by rw [here]; rfl) nofun

/-- A lock that is given back goes to the next in line, if there is one. -/
theorem Orderly.unlock (h : Orderly f) (id : String) : Orderly (f.unlock id) := by
  obtain same | ⟨c, hc, rfl, here, unlocked⟩ := f.unlock_cases id
  · rw [same]
    exact h
  · rw [unlocked]
    have lock : c.stage.hasLock = true := by rw [here]; rfl
    refine (h.unheld hc lock (h.toFiled.place c.id .leaving) (fun d hd other => ?_)
      fun d hd => ?_).handOver
    · exact mem_place.2 (.inr ⟨hd, other⟩)
    · rcases mem_place.1 hd with ⟨old, _, _, rfl⟩ | old
      · exact .inl rfl
      · exact .inr old

/-- A key is taken out of the file when no claim uses its slot any more. -/
theorem Orderly.forget (h : Orderly f) (id : String) : Orderly (f.forget id) := by
  obtain same | ⟨c, hc, rfl, here, forgotten⟩ := f.forget_cases id
  · rw [same]
    exact h
  · rw [forgotten]
    have left := h.withdraw hc (by rw [here]; rfl)
    by_cases two : f.references c.slot = 2
    · rw [if_pos two]
      refine left.unfile fun d hd same => ?_
      obtain ⟨hd, other⟩ := mem_withdraw.1 hd
      have sameSlot : d.slot = c.slot := (h.key_eq_iff hd hc).1 same
      rw [h.alone_of_references hc hd two sameSlot] at other
      exact other rfl
    · rw [if_neg two]
      exact left

/-- A cancelled claim that had been handed the lock leaves it to the next in line. -/
theorem Orderly.cancel (h : Orderly f) (id : String) : Orderly (f.cancel id) := by
  obtain same | ⟨c, hc, rfl, ⟨queued, cancelled⟩ | ⟨granted, cancelled⟩⟩ := f.cancel_cases id
  · rw [same]
    exact h
  · rw [cancelled]
    exact h.withdraw hc (by rw [queued]; rfl)
  · rw [cancelled]
    exact (h.unheld hc (by rw [granted]; rfl) (h.toFiled.withdraw _)
      (fun d hd other => mem_withdraw.2 ⟨hd, other⟩) fun d hd => .inr (mem_withdraw.1 hd)).handOver

theorem Orderly.step (h : Orderly f) (m : Move) : Orderly (f.step m) := by
  cases m with
  | arrive id key => exact h.arrive id key
  | join id => exact h.join id
  | run id => exact h.run id
  | unlock id => exact h.unlock id
  | forget id => exact h.forget id
  | cancel id => exact h.cancel id

/-- Callers take steps, one after another. -/
def play (f : Flight) (moves : List Move) : Flight := moves.foldl step f

/-- A flight is orderly after any steps. -/
theorem Orderly.play (h : Orderly f) (moves : List Move) : Orderly (f.play moves) := by
  induction moves generalizing f with
  | nil => exact h
  | cons m moves ih => exact ih (h.step m)

/-! ## Other keys

What a step changes has to do with the key of the claim that takes it. -/

/-- The key that a step is about, if it is anybody's step. -/
def subject? (f : Flight) : Move → Option String
  | .arrive _ key => some key
  | .join id | .run id | .unlock id | .forget id | .cancel id => (f.claim? id).map (·.key)

/-- The claims on a key, in their order. -/
def claimsOn (f : Flight) (key : String) : List Claim := f.claims.filter (·.key = key)

theorem claimsOn_concat (other : c.key ≠ key) :
    ({ f with claims := f.claims ++ [c] } : Flight).claimsOn key = f.claimsOn key := by
  simp [claimsOn, other]

theorem claimsOn_withdraw (elsewhere : ∀ c ∈ f.claims, c.id = id → c.key ≠ key) :
    (f.withdraw id).claimsOn key = f.claimsOn key := by
  rw [claimsOn, claimsOn, withdraw, List.filter_filter]
  refine List.filter_congr fun c hc => ?_
  by_cases own : c.id = id
  · simp [elsewhere c hc own]
  · simp [own]

theorem claimsOn_place (elsewhere : ∀ c ∈ f.claims, c.id = id → c.key ≠ key) :
    (f.place id stage).claimsOn key = f.claimsOn key := by
  rw [claimsOn, claimsOn, place, List.filter_map]
  have keeps : (fun c : Claim => decide (c.key = key)) ∘
      (fun c => if c.id = id then { c with stage } else c) = fun c => decide (c.key = key) := by
    funext c
    by_cases own : c.id = id <;> simp [own]
  rw [keeps]
  refine (List.map_congr_left fun c hc => ?_).trans (List.map_id _)
  obtain ⟨hc, here⟩ := List.mem_filter.1 hc
  have other : c.id ≠ id := fun own => elsewhere c hc own (of_decide_eq_true here)
  simp [other]

/-- Handing over the lock of a slot changes nothing for keys that use other slots. -/
theorem Filed.claimsOn_handOver (h : Filed f)
    (elsewhere : ∀ c ∈ f.claims, c.slot = slot → c.key ≠ key) :
    (f.handOver slot).claimsOn key = f.claimsOn key := by
  obtain ⟨same, _⟩ | ⟨first, hfirst, own, _, handed⟩ := f.handOver_cases slot
  · rw [same]
  · rw [handed]
    refine claimsOn_place fun c hc same => ?_
    rw [h.eq_of_id hc hfirst same]
    exact elsewhere first hfirst own

theorem slots_handOver (f : Flight) (slot : Nat) : (f.handOver slot).slots = f.slots := by
  obtain ⟨same, _⟩ | ⟨_, _, _, _, handed⟩ := f.handOver_cases slot
  · rw [same]
  · rw [handed]
    rfl

/-- Who goes by the name of a claim on another key is that claim. -/
theorem Filed.elsewhere (h : Filed f) (hc : c ∈ f.claims) (other : c.key ≠ key) :
    ∀ d ∈ f.claims, d.id = c.id → d.key ≠ key := by
  intro d hd same
  rwa [h.eq_of_id hd hc same]

/-- The claims on one slot are all on one key. -/
theorem Filed.elsewhere_slot (h : Filed f) (hc : c ∈ f.claims) (other : c.key ≠ key) :
    ∀ d ∈ f.claims, d.slot = c.slot → d.key ≠ key := by
  intro d hd same
  rwa [(h.key_eq_iff hd hc).2 same]

theorem Filed.key_ne (h : Filed f) (hc : c ∈ f.claims)
    (other : (f.claim? c.id).map (·.key) ≠ some key) : c.key ≠ key := by
  rw [h.claim?_eq hc, Option.map_some] at other
  exact fun same => other (congrArg some same)

/-- A step about one key leaves the claims on another and its slot as they are. -/
theorem Orderly.step_elsewhere (h : Orderly f) (m : Move) (other : f.subject? m ≠ some key) :
    (f.step m).claimsOn key = f.claimsOn key ∧ (f.step m).slots.find? key = f.slots.find? key := by
  cases m with
  | arrive id key' =>
    have ne : key' ≠ key := fun same => other (congrArg some same)
    simp only [Flight.step]
    unfold Flight.arrive
    split
    · exact ⟨rfl, rfl⟩
    · split
      · exact ⟨claimsOn_concat ne, rfl⟩
      · exact ⟨claimsOn_concat ne, Catalog.find?_insert_of_ne ne f.next f.slots⟩
  -- In each of the cases below, a step that does something concerns the claim it finds, and that
  -- claim is on another key.
  | join id =>
    rw [Flight.step]
    obtain same | ⟨c, hc, rfl, _, joined⟩ := f.join_cases id
    · rw [same]
      exact ⟨rfl, rfl⟩
    · have ne := h.key_ne hc other
      rw [joined, ← claimsOn_withdraw (h.elsewhere hc ne)]
      exact ⟨claimsOn_concat (c := { c with stage := _ }) ne, rfl⟩
  | run id =>
    rw [Flight.step]
    obtain same | ⟨c, hc, rfl, _, ran⟩ := f.run_cases id
    · rw [same]
      exact ⟨rfl, rfl⟩
    · rw [ran]
      exact ⟨claimsOn_place (h.elsewhere hc (h.key_ne hc other)), rfl⟩
  | unlock id =>
    rw [Flight.step]
    obtain same | ⟨c, hc, rfl, _, unlocked⟩ := f.unlock_cases id
    · rw [same]
      exact ⟨rfl, rfl⟩
    · have ne := h.key_ne hc other
      rw [unlocked, slots_handOver, (h.toFiled.place c.id .leaving).claimsOn_handOver]
      · exact ⟨claimsOn_place (h.elsewhere hc ne), rfl⟩
      -- The lock is handed over in the slot of the other key, which no claim on ours uses.
      · intro d hd same
        rcases mem_place.1 hd with ⟨old, hold, _, rfl⟩ | ⟨hd, _⟩
        · exact h.elsewhere_slot hc ne old hold same
        · exact h.elsewhere_slot hc ne d hd same
  | forget id =>
    rw [Flight.step]
    obtain same | ⟨c, hc, rfl, _, forgotten⟩ := f.forget_cases id
    · rw [same]
      exact ⟨rfl, rfl⟩
    · have ne := h.key_ne hc other
      rw [forgotten]
      refine ⟨claimsOn_withdraw (h.elsewhere hc ne), ?_⟩
      -- Only the slot of the other key may be taken out of the file.
      by_cases two : f.references c.slot = 2
      · rw [if_pos two]
        exact Catalog.find?_erase_of_ne ne f.slots
      · rw [if_neg two]
  | cancel id =>
    rw [Flight.step]
    obtain same | ⟨c, hc, rfl, ⟨_, cancelled⟩ | ⟨_, cancelled⟩⟩ := f.cancel_cases id
    · rw [same]
      exact ⟨rfl, rfl⟩
    · rw [cancelled]
      exact ⟨claimsOn_withdraw (h.elsewhere hc (h.key_ne hc other)), rfl⟩
    · have ne := h.key_ne hc other
      rw [cancelled, slots_handOver, (h.toFiled.withdraw c.id).claimsOn_handOver]
      · exact ⟨claimsOn_withdraw (h.elsewhere hc ne), rfl⟩
      · intro d hd same
        exact h.elsewhere_slot hc ne d (mem_withdraw.1 hd).1 same

/-- Who asks for a lock that nobody on its key holds gets it at once. -/
theorem Orderly.owning_of_join (h : Orderly f) (asks : f.claimAt? .arrived id = some c)
    (free : ∀ d ∈ f.claims, d.key = c.key → d.stage.hasLock = false) :
    (f.join id).claimAt? .owning id = some { c with stage := .owning } := by
  obtain ⟨hc, own, _⟩ := mem_of_claimAt? asks
  have unlocked : f.isLocked c.slot = false := by
    refine eq_false_of_ne_true fun locked => ?_
    obtain ⟨d, hd, same, lock⟩ := isLocked_iff.1 locked
    cases (free d hd ((h.key_eq_iff hd hc).2 same)).symm.trans lock
  have joined : f.join id =
      { f with claims := (f.withdraw id).claims ++ [{ c with stage := .owning }] } := by
    simp only [Flight.join, asks, unlocked]
    rfl
  have found := (h.join id).claim?_eq (c := { c with stage := .owning })
    (by rw [joined]; exact List.mem_append_right _ (List.mem_singleton.2 rfl))
  rw [own] at found
  rw [claimAt?, found, ← own]
  rfl

/-- Whatever steps callers take, in whatever order and on whatever keys:

* of two claims that hold the lock of one key, both are the same claim;
* a claim, be it held, waiting or about to go, uses the slot filed under its key, and no other key
  has that slot;
* a claim waits in line only while another one on its key has the lock;
* a claim gets the lock at once if nobody else on its key has it;
* and a step about one key leaves the claims on all others as they are. -/
theorem mutual_exclusion (moves : List Move) :
    let f := ({} : Flight).play moves
    (∀ c ∈ f.claims, ∀ c' ∈ f.claims, c.key = c'.key → c.stage.hasLock = true →
      c'.stage.hasLock = true → c = c') ∧
    (∀ c ∈ f.claims, ∀ key, f.slots.find? key = some c.slot ↔ key = c.key) ∧
    (∀ c ∈ f.claims, c.stage = .queued →
      ∃ c' ∈ f.claims, c'.key = c.key ∧ c'.stage.hasLock = true) ∧
    (∀ id c, f.claimAt? .arrived id = some c →
      (∀ d ∈ f.claims, d.key = c.key → d.stage.hasLock = false) →
      (f.join id).claimAt? .owning id = some { c with stage := .owning }) ∧
    ∀ m key, f.subject? m ≠ some key →
      (f.step m).claimsOn key = f.claimsOn key ∧
      (f.step m).slots.find? key = f.slots.find? key := by
  intro f
  have h : Orderly f := orderly_empty.play moves
  refine ⟨fun c hc c' hc' same => ?_, fun c hc key => ?_, fun c hc queued => ?_,
    fun id c asks free => h.owning_of_join asks free, fun m key => h.step_elsewhere m⟩
  · exact h.single c hc c' hc' ((h.key_eq_iff hc hc').1 same)
  · constructor
    · intro filed
      exact h.apart key c.key c.slot filed (h.filed c hc)
    · rintro rfl
      exact h.filed c hc
  · obtain ⟨holder, hh, slot, lock⟩ := h.served c hc queued
    exact ⟨holder, hh, (h.key_eq_iff hh hc).2 slot, lock⟩

end GrantCache.Flight
