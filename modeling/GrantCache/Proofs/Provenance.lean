import GrantCache.Proofs.Grants.Moves

/-!
# Where an answer comes from

What is read for a user is what was cached last for that very user, as long as it has not expired and
neither the user nor the whole cache has been cleared since (`answer_is_last_cached`). Whatever else a
run does, for other users, of the other kind or to the sets of codes, can only make the answer go
away.
-/

namespace GrantCache

open Grants

variable {g g' : Grants} {steps : List Step} {kind : GrantKind} {user : String}

/-! ## The last step that cached something -/

/-- A record either has no step that cached something for the user, or a last one. -/
theorem exists_last_caching (kind : GrantKind) (user : String) (steps : List Step) :
    (∀ s ∈ steps, ¬ s.Caches kind user) ∨
      ∃ before s after, steps = before ++ s :: after ∧ s.Caches kind user ∧
        ∀ t ∈ after, ¬ t.Caches kind user := by
  induction steps with
  | nil => exact Or.inl nofun
  | cons first rest ih =>
    -- The last one is in the rest, or else the first step is it.
    rcases ih with none | ⟨before, s, after, rfl, hs, later⟩
    · by_cases hf : first.Caches kind user
      · exact Or.inr ⟨[], first, rest, rfl, hf, none⟩
      · exact Or.inl fun s hs => (List.mem_cons.1 hs).elim (· ▸ hf) (none s)
    · exact Or.inr ⟨first :: before, s, after, rfl, hs, later⟩

theorem isAlive_of_live? {key : String} {e : Entry} (h : g.live? key = some e) :
    e.isAlive g.host.now = true := by
  obtain ⟨s, -, he⟩ := Option.bind_eq_some_iff.1 h
  exact (Option.filter_eq_some_iff.1 he).2

/-- Seconds until a deadline, counted from the instant at which it was set. -/
theorem fresh_of_deadline {now then' seconds : Nat} {data : Data} {deadline : Option Nat}
    (h : ttlDeadline? then' (some seconds) = some deadline)
    (alive : (⟨data, deadline⟩ : Entry).isAlive now = true) :
    seconds = 0 ∨ now < then' + 1000 * seconds := by
  cases seconds with
  | zero => exact Or.inl rfl
  | succ n =>
    right
    simp only [ttlDeadline?, deadlineIn?] at h
    split at h
    · cases h
      simpa [Entry.isAlive] using alive
    · cases h

/-! ## The entry of a user along a run -/

/-- What is cached by a step stays until the end of the run, or is gone by then. -/
theorem Runs.entry_of_caching {ttl : Option Nat} {codes : List String} {wait ended : Bool}
    {time : Nat} {after : List Step}
    (h : Runs g (⟨.set kind user codes ttl wait, time, ended⟩ :: after) g') (ho : g.Orderly)
    (hended : ended = true) (later : ∀ t ∈ after, ¬ t.Caches kind user) {e : Entry}
    (he : g'.live? (kind.entryKey user) = some e) :
    time = g.host.now ∧ ∃ deadline, g.deadline? ttl = some deadline ∧
      e = ⟨.scalar (.texts codes.eraseDups), deadline⟩ := by
  cases h with
  | step lawful rest =>
    rw [move_set_fst, isSome_set ho.sound] at hended
    obtain ⟨deadline, hd⟩ := Option.isSome_iff_exists.1 hended
    refine ⟨rfl, deadline, hd, ?_⟩
    -- the entry as it was written, and what has become of it since
    have wrote : (g.set kind user codes ttl).2.live? (kind.entryKey user) =
        some ⟨.scalar (.texts codes.eraseDups), deadline⟩ := live?_set_op ho.sound hd
    have sound := sound_set_op ho.sound kind user codes ttl
    have waited := (respects_move_set ⟨kind, user, ""⟩ kind user codes ttl wait g sound).entry
    have faded := (Runs.keeps (x := ⟨kind, user, ""⟩) rest (orderly_move ho lawful) later).entry
    have now := (waited.trans faded).some he
    exact Option.some.inj ((show _ = some e from now).symm.trans wrote)

/-- Who was cleared and has nothing cached since has no entry. -/
theorem Runs.no_entry {m : Move} {time : Nat} {ended : Bool} {after : List Step}
    (h : Runs g (⟨m, time, ended⟩ :: after) g') (ho : g.Orderly)
    (clears : m = .deleteUser user ∨ m = .flush)
    (later : ∀ t ∈ after, ¬ t.Caches kind user) : g'.live? (kind.entryKey user) = none := by
  cases h with
  | step lawful rest =>
    have cleared : Grant.Cleared ⟨kind, user, ""⟩ (g.move m).2 := by
      rcases clears with rfl | rfl
      · exact Grant.cleared_deleteUser ⟨kind, user, ""⟩ ho.sound
      · exact Grant.cleared_flush ⟨kind, user, ""⟩ ho.sound
    exact (Runs.keeps (x := ⟨kind, user, ""⟩) rest (orderly_move ho lawful) later).cleared cleared

/-! ## The answer -/

theorem texts_injective {names names' : List String} (h : Json.texts names = Json.texts names') :
    names = names' := by
  have read := congrArg Json.texts? h
  rw [Json.texts?_texts, Json.texts?_texts] at read
  exact Option.some.inj read

theorem live?_of_get (hs : g.Sound) {codes : List String}
    (h : (g.get kind user).1 = some (some codes)) :
    ∃ deadline, g.live? (kind.entryKey user) = some ⟨.scalar (.texts codes), deadline⟩ := by
  rw [hs.get_eq] at h
  have read : g.codes? kind user = some codes := Option.some.inj h
  obtain ⟨e, he, hc⟩ := Option.bind_eq_some_iff.1 read
  obtain ⟨cached, deadline, rfl⟩ := hs.codes he
  simp only [Json.texts?_texts] at hc
  obtain rfl := Option.some.inj hc
  exact ⟨deadline, he⟩

/-- Whenever codes are read for a user in a run from an empty store, they are those that were cached
last for the user, each once and in the order in which they were given first; their time to live is
not over, and neither the user nor the whole cache was cleared since. As long as nothing is cached
for the user again, the answer stays the same or goes away. -/
theorem answer_is_last_cached {now limit ttl size : Nat} {breaker : Breaker}
    (h : Runs (.start ⟨now, breaker, .bounded (.empty limit)⟩ ttl size) steps g)
    {codes : List String} (read : (g.get kind user).1 = some (some codes)) :
    (∃ before after given seconds wait time,
      steps = before ++ ⟨.set kind user given seconds wait, time, true⟩ :: after ∧
      codes = given.eraseDups ∧
      (seconds.getD ttl = 0 ∨ g.host.now < time + 1000 * seconds.getD ttl) ∧
      (∀ s ∈ after, ¬ s.Caches kind user) ∧
      ∀ s ∈ after, s.move ≠ .deleteUser user ∧ s.move ≠ .flush) ∧
    ∀ (more : List Step) (g' : Grants), Runs g more g' → (∀ s ∈ more, ¬ s.Caches kind user) →
      ∀ codes', (g'.get kind user).1 = some (some codes') → codes' = codes := by
  have fresh := orderly_start now breaker limit ttl size
  have ho := h.orderly fresh
  obtain ⟨deadline, entry⟩ := live?_of_get ho.sound read
  constructor
  · rcases exists_last_caching kind user steps with never | ⟨before, s, after, rfl, caches, later⟩
    · -- nothing was ever cached for the user
      have none := (h.keeps (x := ⟨kind, user, ""⟩) fresh never).cleared rfl
      cases entry.symm.trans none
    · obtain ⟨t, first, last⟩ := h.split
      have ht := first.orderly fresh
      obtain ⟨m, time, ended⟩ := s
      obtain ⟨rfl, hm⟩ := caches
      cases m with
      | set k u given seconds wait =>
        obtain ⟨rfl, rfl⟩ := hm
        obtain ⟨rfl, d, hd, he⟩ := last.entry_of_caching ht rfl later entry
        obtain ⟨hv, rfl⟩ := Entry.mk.inj he
        obtain rfl := texts_injective (Data.scalar.inj hv)
        have default : t.defaultTtl = ttl := first.sameDefault fresh
        rw [deadline?, default] at hd
        refine ⟨before, after, given, seconds, wait, t.host.now, rfl, rfl,
          fresh_of_deadline hd (isAlive_of_live? entry), later, fun s hs => ?_⟩
        -- had the user been cleared since, there would be no entry
        rw [← not_or]
        intro clears
        obtain ⟨before', after', rfl⟩ := List.append_of_mem hs
        obtain ⟨lawful, -, -, rest⟩ := last.head
        obtain ⟨u, rest, clearing⟩ := rest.split
        have hu := rest.orderly (orderly_move ht lawful)
        have none := clearing.no_entry hu clears fun s hs => later s (by simp [hs])
        cases entry.symm.trans none
      | _ => exact hm.elim
  · intro more g' hmore other codes' read'
    have keeps := hmore.keeps (x := ⟨kind, user, ""⟩) ho other
    obtain ⟨deadline', entry'⟩ := live?_of_get keeps.sound read'
    have same := Option.some.inj (entry.symm.trans (keeps.entry.some entry'))
    exact (texts_injective (Data.scalar.inj (Entry.mk.inj same).1)).symm

/-- Ann's codes are cached, with one given twice, and read a second later. -/
theorem answer_is_last_cached_after_a_second :
    ∃ g, Runs (.start ⟨0, {}, .bounded (.empty 8)⟩ 3600 100)
        [⟨.set .role "ann" ["admin", "dev", "admin"] none true, 0, true⟩, ⟨.pass 1000, 0, true⟩] g ∧
      (g.get .role "ann").1 = some (some ["admin", "dev"]) ∧
      ∃ before after given seconds wait time,
        [⟨.set .role "ann" ["admin", "dev", "admin"] none true, 0, true⟩, ⟨.pass 1000, 0, true⟩] =
          before ++ (⟨.set .role "ann" given seconds wait, time, true⟩ : Step) :: after ∧
        ["admin", "dev"] = given.eraseDups ∧
        (seconds.getD 3600 = 0 ∨ g.host.now < time + 1000 * seconds.getD 3600) ∧
        (∀ s ∈ after, ¬ s.Caches .role "ann") ∧
        ∀ s ∈ after, s.move ≠ .deleteUser "ann" ∧ s.move ≠ .flush := by
  have run : Runs (.start ⟨0, {}, .bounded (.empty 8)⟩ 3600 100)
      [⟨.set .role "ann" ["admin", "dev", "admin"] none true, 0, true⟩, ⟨.pass 1000, 0, true⟩] _ :=
    .step trivial (.step trivial (.done _))
  refine ⟨_, run, by decide +kernel, ?_⟩
  exact (answer_is_last_cached run (by decide +kernel)).1

end GrantCache
