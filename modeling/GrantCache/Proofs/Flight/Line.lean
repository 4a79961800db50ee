import GrantCache.Proofs.Flight.Exclusion

/-!
# First come, first served

What a flight is when all its callers want the same key: a line of callers, the first of whom has the
lock. `Lined key names` says so, and each step is described by what it does to the line and to the stages
of the claims: whoever joins goes to the end (`Lined.join`), and whoever unlocks was at the front and
makes room for the next (`Lined.unlock`). Once nobody is left the key is out of the file
(`Lined.inFlight_eq_zero`), for the last claim to go is the one that finds itself alone
(`Lined.forget`).
-/

namespace GrantCache

/-- A claim is in line from when the lock is asked for until it is given back. -/
def Stage.isInLine : Stage → Bool
  | queued | granted | owning => true
  | _ => false

namespace Flight

variable {f : Flight} {c : Claim} {id other key : String} {slot : Nat} {stage : Stage}
  {names rest : List String}

/-! ## Stages by name -/

/-- The stage of a caller's claim, if there is one. -/
def stage? (id : String) (f : Flight) : Option Stage := (f.claim? id).map (·.stage)

theorem Filed.stage?_eq (h : Filed f) (hc : c ∈ f.claims) : f.stage? c.id = some c.stage := by
  rw [stage?, h.claim?_eq hc, Option.map_some]

theorem claimAt?_of_stage? (h : f.stage? id = some stage) :
    ∃ c ∈ f.claims, c.id = id ∧ c.stage = stage ∧ f.claimAt? stage id = some c := by
  obtain ⟨c, found, here⟩ := Option.map_eq_some_iff.1 h
  obtain ⟨hc, own⟩ := mem_of_claim? found
  refine ⟨c, hc, own, here, ?_⟩
  rw [claimAt?, found, Option.filter_some, if_pos (decide_eq_true here)]

theorem ne_of_stage?_none (h : f.stage? id = none) : ∀ c ∈ f.claims, c.id ≠ id :=
  ne_of_claim?_none (Option.map_eq_none_iff.1 h)

theorem stage?_concat (new : ∀ d ∈ f.claims, d.id ≠ c.id) (other : String) :
    ({ f with claims := f.claims ++ [c] } : Flight).stage? other =
      if other = c.id then some c.stage else f.stage? other := by
  rw [stage?, stage?, claim?, claim?, List.find?_append]
  split
  · rename_i own
    subst own
    have absent : f.claims.find? (·.id = c.id) = none := by
      rw [List.find?_eq_none]
      intro d hd
      simpa using new d hd
    simp [absent]
  · rename_i apart
    simp [Ne.symm apart]

theorem stage?_withdraw (id other : String) (f : Flight) :
    (f.withdraw id).stage? other = if other = id then none else f.stage? other := by
  rw [stage?, stage?, claim?, claim?, withdraw, List.find?_filter]
  split
  · rename_i own
    simp [own]
  · rename_i apart
    congr 2
    funext c
    by_cases here : c.id = other
    · simp [here, apart]
    · simp [here]

theorem stage?_place (id other : String) (stage : Stage) (f : Flight) :
    (f.place id stage).stage? other =
      if other = id then (f.stage? id).map fun _ => stage else f.stage? other := by
  have keeps : (fun c : Claim => decide (c.id = other)) ∘
      (fun c => if c.id = id then { c with stage } else c) = fun c => decide (c.id = other) := by
    funext c
    by_cases own : c.id = id <;> simp [own]
  rw [stage?, stage?, stage?, claim?, claim?, claim?, place, List.find?_map, keeps]
  split
  · rename_i own
    subst own
    cases found : f.claims.find? fun c => decide (c.id = other) with
    | none => rfl
    | some c =>
      have here : c.id = other := by simpa using List.find?_some found
      simp [here]
  · rename_i apart
    cases found : f.claims.find? fun c => decide (c.id = other) with
    | none => rfl
    | some c =>
      have here : c.id = other := by simpa using List.find?_some found
      simp [here, apart]

/-- To hand over a lock is to grant it to one who is in line for it. -/
theorem Filed.stage?_handOver (h : Filed f) (slot : Nat) (other : String) :
    (f.handOver slot).stage? other = f.stage? other ∨
      f.stage? other = some .queued ∧ (f.handOver slot).stage? other = some .granted := by
  obtain ⟨same, _⟩ | ⟨first, hfirst, _, queued, handed⟩ := f.handOver_cases slot
  · rw [same]
    exact .inl rfl
  · rw [handed]
    have before : f.stage? first.id = some .queued := by rw [h.stage?_eq hfirst, queued]
    by_cases own : other = first.id
    · right
      rw [stage?_place, if_pos own, own, before]
      exact ⟨rfl, rfl⟩
    · left
      rw [stage?_place, if_neg own]

/-! ## The line -/

/-- The callers that have asked for a lock and not given it back, in the order in which they asked. -/
def line (f : Flight) : List String := (f.claims.filter (·.stage.isInLine)).map (·.id)

theorem mem_line : id ∈ f.line ↔ ∃ c ∈ f.claims, c.stage.isInLine = true ∧ c.id = id := by
  simp [line, and_assoc]

theorem Filed.mem_line_iff (h : Filed f) (hc : c ∈ f.claims) :
    c.id ∈ f.line ↔ c.stage.isInLine = true := by
  rw [mem_line]
  constructor
  · rintro ⟨d, hd, inLine, same⟩
    rwa [← h.eq_of_id hd hc same]
  · intro inLine
    exact ⟨c, hc, inLine, rfl⟩

theorem Filed.nodup_line (h : Filed f) : f.line.Nodup :=
  h.ids.sublist (List.filter_sublist.map _)

theorem line_concat (f : Flight) (c : Claim) :
    ({ f with claims := f.claims ++ [c] } : Flight).line =
      f.line ++ if c.stage.isInLine then [c.id] else [] := by
  cases inLine : c.stage.isInLine <;> simp [line, inLine]

theorem line_withdraw (id : String) (f : Flight) :
    (f.withdraw id).line = f.line.filter (· ≠ id) := by
  rw [line, line, withdraw, List.filter_map, List.filter_filter, List.filter_filter]
  congr 2
  funext c
  exact Bool.and_comm ..

/-- To set the stage of a claim is to say whether it is in line; it does not change places. -/
theorem line_place (id : String) (stage : Stage) (f : Flight) :
    (f.place id stage).line = (f.claims.filter fun c =>
      if c.id = id then stage.isInLine else c.stage.isInLine).map (·.id) := by
  rw [line, place, List.filter_map, List.map_map]
  have own : (fun c : Claim => c.id) ∘ (fun c => if c.id = id then { c with stage } else c) =
      fun c => c.id := by
    funext c
    by_cases own : c.id = id <;> simp [own]
  rw [own]
  congr 2
  funext c
  by_cases own : c.id = id <;> simp [own]

/-- Nobody's place in line changes while a claim goes from one stage in line to another. -/
theorem line_place_of_inLine (keeps : ∀ c ∈ f.claims, c.id = id →
    c.stage.isInLine = stage.isInLine) : (f.place id stage).line = f.line := by
  rw [line_place, line]
  congr 1
  refine List.filter_congr fun c hc => ?_
  split
  · rename_i own
    exact (keeps c hc own).symm
  · rfl

theorem line_place_leaving (id : String) (f : Flight) :
    (f.place id .leaving).line = f.line.filter (· ≠ id) := by
  rw [line_place, line, List.filter_map, List.filter_filter]
  congr 2
  funext c
  by_cases own : c.id = id <;> simp [own, Stage.isInLine]

/-- The line stays as it is when the lock is handed to the first who waits. -/
theorem line_handOver (h : Filed f) (slot : Nat) : (f.handOver slot).line = f.line := by
  obtain ⟨same, _⟩ | ⟨first, hfirst, _, queued, handed⟩ := f.handOver_cases slot
  · rw [same]
  · rw [handed]
    refine line_place_of_inLine fun c hc same => ?_
    rw [h.eq_of_id hc hfirst same, queued]
    rfl

/-! ## One key -/

/-- A flight of callers that all want one key. The given ones are in line, and the first of them has the
lock; the key is in the file as long as there is any claim. -/
structure Lined (key : String) (names : List String) (f : Flight) : Prop extends Orderly f where
  wanted : ∀ c ∈ f.claims, c.key = key
  file : f.slots = [] ∧ f.claims = [] ∨ f.claims ≠ [] ∧ ∃ slot, f.slots = [(key, slot)]
  order : f.line = names
  front : ∀ c ∈ f.claims, c.stage.isInLine = true →
    (c.stage.hasLock = true ↔ names.head? = some c.id)

theorem lined_of_empty (slots : f.slots = []) (claims : f.claims = []) (key : String) :
    Lined key [] f := by
  refine ⟨⟨⟨?_, ?_, ?_, ?_⟩, ?_, ?_⟩, ?_, .inl ⟨slots, claims⟩, by simp [line, claims], ?_⟩ <;>
    simp [slots, claims]

theorem Lined.slot_eq (h : Lined key names f) {d : Claim} (hd : d ∈ f.claims) (hc : c ∈ f.claims) :
    d.slot = c.slot := (h.key_eq_iff hd hc).1 ((h.wanted d hd).trans (h.wanted c hc).symm)

/-- Once everybody is gone, so is the key. -/
theorem Lined.inFlight_eq_zero (h : Lined key names f) (gone : ∀ id, f.stage? id = none) :
    f.inFlight = 0 := by
  rcases h.file with ⟨slots, _⟩ | ⟨some, _⟩
  · rw [inFlight, slots]
    rfl
  · obtain ⟨c, hc⟩ := List.exists_mem_of_ne_nil _ some
    cases (h.stage?_eq hc).symm.trans (gone c.id)

/-- Who has the lock is at the front. -/
theorem Lined.head?_of_lock (h : Lined key names f) (own : f.stage? id = some stage)
    (lock : stage.hasLock = true) : names.head? = some id := by
  obtain ⟨c, hc, rfl, rfl, _⟩ := claimAt?_of_stage? own
  refine (h.front c hc ?_).1 lock
  revert lock
  cases c.stage <;> decide

/-- Who is at the front has the lock, noticed or not. -/
theorem Lined.lock_of_head (h : Lined key (id :: rest) f) :
    f.stage? id = some .granted ∨ f.stage? id = some .owning := by
  have first : id ∈ f.line := by
    rw [h.order]
    exact List.mem_cons_self
  obtain ⟨c, hc, inLine, rfl⟩ := mem_line.1 first
  have lock := (h.front c hc inLine).2 rfl
  rw [h.stage?_eq hc]
  revert lock
  cases c.stage <;> decide

/-- The key is locked as long as anybody is in line. -/
theorem Lined.isLocked (h : Lined key names f) (hc : c ∈ f.claims) :
    f.isLocked c.slot = !names.isEmpty := by
  rw [Bool.eq_iff_iff, isLocked_iff]
  constructor
  · rintro ⟨d, hd, _, lock⟩
    have first := h.head?_of_lock (h.stage?_eq hd) lock
    cases names with
    | nil => cases first
    | cons => rfl
  · intro some
    obtain _ | ⟨first, rest⟩ := names
    · cases some
    · have lock : ∃ stage, stage.hasLock = true ∧ f.stage? first = .some stage := by
        rcases h.lock_of_head with granted | owning
        · exact ⟨_, rfl, granted⟩
        · exact ⟨_, rfl, owning⟩
      obtain ⟨_, lock, held⟩ := lock
      obtain ⟨d, hd, _, rfl, _⟩ := claimAt?_of_stage? held
      exact ⟨d, hd, h.slot_eq hd hc, lock⟩

/-! ## The steps of a caller -/

/-- Who arrives finds the slot of the key, or files a new one. -/
theorem Lined.arrive_eq (h : Lined key names f) (absent : f.stage? id = none) :
    ∃ next slot, f.arrive id key =
      ⟨next, [(key, slot)], f.claims ++ [⟨id, key, slot, .arrived⟩]⟩ := by
  have new : (f.claim? id).isSome = false := by
    rw [Option.map_eq_none_iff.1 absent]
    rfl
  rcases h.file with ⟨slots, _⟩ | ⟨_, slot, slots⟩
  · exact ⟨f.next + 1, f.next, by simp [Flight.arrive, new, slots, Catalog.insert]⟩
  · exact ⟨f.next, slot, by simp [Flight.arrive, new, slots, Catalog.find?]⟩

/-- Who arrives is not in line yet. -/
theorem Lined.arrive (h : Lined key names f) (absent : f.stage? id = none) :
    Lined key names (f.arrive id key) := by
  have orderly := h.toOrderly.arrive id key
  obtain ⟨next, slot, arrived⟩ := h.arrive_eq absent
  rw [arrived] at orderly ⊢
  refine ⟨orderly, fun c hc => ?_, .inr ⟨by simp, slot, rfl⟩, ?_, fun c hc inLine => ?_⟩
  · rcases List.mem_append.1 hc with old | last
    · exact h.wanted c old
    · rw [List.mem_singleton.1 last]
  · exact (line_concat f _).trans (by simp [Stage.isInLine, h.order])
  · rcases List.mem_append.1 hc with old | last
    · exact h.front c old inLine
    · rw [List.mem_singleton.1 last] at inLine
      cases inLine

theorem Lined.stage?_arrive (h : Lined key names f) (absent : f.stage? id = none) (other : String) :
    (f.arrive id key).stage? other = if other = id then some .arrived else f.stage? other := by
  obtain ⟨next, slot, arrived⟩ := h.arrive_eq absent
  rw [arrived]
  exact stage?_concat (c := ⟨id, key, slot, .arrived⟩) (ne_of_stage?_none absent) other

/-- Who joins goes to the end of the line, and has the lock if it is the front, too. -/
theorem Lined.join_eq (h : Lined key names f) (here : f.stage? id = some .arrived) :
    ∃ c ∈ f.claims, c.id = id ∧ c.stage = .arrived ∧ f.join id =
      { f with claims := (f.withdraw id).claims ++
          [{ c with stage := if names.isEmpty then .owning else .queued }] } := by
  obtain ⟨c, hc, own, arrived, found⟩ := claimAt?_of_stage? here
  refine ⟨c, hc, own, arrived, ?_⟩
  simp only [Flight.join, found, h.isLocked hc]
  cases names <;> rfl

/-- Who asks for the lock joins the line at its end. -/
theorem Lined.join (h : Lined key names f) (here : f.stage? id = some .arrived) :
    Lined key (names ++ [id]) (f.join id) := by
  have orderly := h.toOrderly.join id
  obtain ⟨c, hc, rfl, arrived, joined⟩ := h.join_eq here
  have apart : c.id ∉ f.line := by
    rw [h.mem_line_iff hc, arrived]
    decide
  have file : ∃ slot, f.slots = [(key, slot)] := by
    rcases h.file with ⟨_, none⟩ | ⟨_, file⟩
    · rw [none] at hc
      cases hc
    · exact file
  rw [joined] at orderly ⊢
  refine ⟨orderly, fun d hd => ?_, .inr ⟨by simp, file⟩, ?_, fun d hd inLine => ?_⟩
  · rcases List.mem_append.1 hd with old | last
    · exact h.wanted d (mem_withdraw.1 old).1
    · rw [List.mem_singleton.1 last]
      exact h.wanted c hc
  · have same : (f.withdraw c.id).line = f.line := by
      rw [line_withdraw, List.filter_eq_self]
      intro id mem
      exact decide_eq_true fun own => apart (own ▸ mem)
    refine (line_concat (f.withdraw c.id) _).trans ?_
    rw [same, h.order]
    cases names <;> rfl
  · rcases List.mem_append.1 hd with old | last
    · -- Those in line before have somebody at their front, and still do.
      obtain ⟨hd, _⟩ := mem_withdraw.1 old
      have some : names ≠ [] := List.ne_nil_of_mem (h.order ▸ (h.mem_line_iff hd).2 inLine)
      rw [h.front d hd inLine, List.head?_append_of_ne_nil names some]
    · rw [List.mem_singleton.1 last]
      cases names with
      | nil => simp [Stage.hasLock]
      | cons first rest =>
        have other : first ≠ c.id := by
          rintro rfl
          exact apart (h.order ▸ List.mem_cons_self)
        simp [Stage.hasLock, other]

/-- Who joins an empty line owns the lock; everybody else waits. -/
theorem Lined.stage?_join (h : Lined key names f) (here : f.stage? id = some .arrived)
    (other : String) : (f.join id).stage? other =
      if other = id then some (if names.isEmpty then .owning else .queued) else f.stage? other := by
  obtain ⟨c, hc, rfl, arrived, joined⟩ := h.join_eq here
  rw [joined]
  have concat (stage : Stage) := stage?_concat (f := f.withdraw c.id) (c := { c with stage })
    (fun d hd => (mem_withdraw.1 hd).2) other
  refine (concat _).trans ?_
  by_cases own : other = c.id
  · rw [if_pos own, if_pos own]
  · rw [if_neg own, if_neg own, stage?_withdraw, if_neg own]

theorem wanted_place (wanted : ∀ c ∈ f.claims, c.key = key) :
    ∀ c ∈ (f.place id stage).claims, c.key = key := by
  intro c hc
  rcases mem_place.1 hc with ⟨old, hold, _, rfl⟩ | ⟨hc, _⟩
  · exact wanted old hold
  · exact wanted c hc

/-- A claim that stays in line and keeps what it has changes nothing for the others. -/
theorem Lined.place (h : Lined key names f) (hc : c ∈ f.claims)
    (lock : stage.hasLock = c.stage.hasLock) (inLine : stage.isInLine = c.stage.isInLine)
    (notQueued : stage ≠ .queued) : Lined key names (f.place c.id stage) := by
  refine ⟨h.toOrderly.place hc lock notQueued, wanted_place h.wanted, ?_, ?_, fun d hd stays => ?_⟩
  · simpa [Flight.place] using h.file
  · rw [line_place_of_inLine, h.order]
    intro d hd same
    rw [h.eq_of_id hd hc same, inLine]
  · rcases mem_place.1 hd with ⟨old, hold, hid, rfl⟩ | ⟨hd, _⟩
    · obtain rfl := h.eq_of_id hold hc hid
      rw [← h.front old hold (inLine ▸ stays)]
      exact iff_of_eq (congrArg (· = true) lock)
    · exact h.front d hd stays

/-- An owner has nothing to notice. -/
theorem run_of_owning (owning : f.stage? id = some .owning) : f.run id = f := by
  obtain ⟨c, found, here⟩ := Option.map_eq_some_iff.1 owning
  have noticed : f.claimAt? .granted id = none := by
    rw [claimAt?, found, Option.filter_some, here]
    rfl
  simp only [Flight.run, noticed]

/-- Who has the lock notices it. -/
theorem Lined.run (h : Lined key names f)
    (turn : f.stage? id = some .granted ∨ f.stage? id = some .owning) :
    Lined key names (f.run id) ∧ ∀ other, (f.run id).stage? other =
      if other = id then some .owning else f.stage? other := by
  rcases turn with granted | owning
  · obtain ⟨c, hc, rfl, here, found⟩ := claimAt?_of_stage? granted
    simp only [Flight.run, found]
    refine ⟨h.place hc (by rw [here]; rfl) (by rw [here]; rfl) (by decide), fun other => ?_⟩
    rw [stage?_place, granted]
    rfl
  · rw [run_of_owning owning]
    refine ⟨h, fun other => ?_⟩
    split
    · rename_i own
      rw [own, owning]
    · rfl

/-- When the first of the line has left, everybody still in it is queued for that lock. -/
theorem Lined.queued_of_leaving (h : Lined key (id :: rest) f) (hc : c ∈ f.claims) :
    ∀ d ∈ (f.place id .leaving).claims, d.stage.isInLine = true ↔
      (d.slot = c.slot ∧ d.stage = .queued) := by
  intro d hd
  rcases mem_place.1 hd with ⟨old, _, _, rfl⟩ | ⟨hd, other⟩
  · simp [Stage.isInLine]
  · constructor
    · intro inLine
      refine ⟨h.slot_eq hd hc, ?_⟩
      have behind : d.stage.hasLock ≠ true := by
        rw [Ne, h.front d hd inLine]
        exact fun first => other (Option.some.inj first).symm
      revert inLine behind
      cases d.stage <;> decide
    · rintro ⟨_, queued⟩
      rw [queued]
      rfl

/-- When the first in line goes, the others are left in order. -/
theorem Lined.line_of_leaving (h : Lined key (id :: rest) f) :
    (f.place id .leaving).line = rest := by
  have nodup := h.nodup_line
  rw [h.order, List.nodup_cons] at nodup
  rw [line_place_leaving, h.order, List.filter_cons_of_neg (by simp), List.filter_eq_self]
  intro other mem
  exact decide_eq_true fun own => nodup.1 (own ▸ mem)

theorem wanted_handOver (wanted : ∀ c ∈ f.claims, c.key = key) (slot : Nat) :
    ∀ c ∈ (f.handOver slot).claims, c.key = key := by
  obtain ⟨same, _⟩ | ⟨_, _, _, _, handed⟩ := f.handOver_cases slot
  · rwa [same]
  · rw [handed]
    exact wanted_place wanted

theorem claims_handOver_ne_nil (some : f.claims ≠ []) (slot : Nat) :
    (f.handOver slot).claims ≠ [] := by
  obtain ⟨same, _⟩ | ⟨_, _, _, _, handed⟩ := f.handOver_cases slot
  · rwa [same]
  · rw [handed]
    simpa [Flight.place] using some

/-- If all that are in line are queued for a lock that is free, handing it over makes the first of the
line the one who has it. -/
theorem front_handOver
    (queued : ∀ d ∈ f.claims, d.stage.isInLine = true ↔ (d.slot = slot ∧ d.stage = .queued)) :
    ∀ d ∈ (f.handOver slot).claims, d.stage.isInLine = true →
      (d.stage.hasLock = true ↔ f.line.head? = some d.id) := by
  have same : f.claims.filter (fun d => d.slot = slot && d.stage = .queued) =
      f.claims.filter (·.stage.isInLine) := by
    refine List.filter_congr fun d hd => ?_
    rw [Bool.eq_iff_iff, queued d hd]
    simp
  -- The first of the line is the first that the hand-over finds.
  have head : f.line.head? =
      (f.claims.find? fun d => d.slot = slot && d.stage = .queued).map (·.id) := by
    rw [← List.head?_filter, same, ← List.head?_map]
    rfl
  intro d hd inLine
  rw [head]
  cases found : f.claims.find? fun d => d.slot = slot && d.stage = .queued with
  | none =>
    simp only [Flight.handOver, found] at hd
    have nobody := List.find?_eq_none.1 found d hd
    have here := (queued d hd).1 inLine
    simp [here] at nobody
  | some first =>
    simp only [Flight.handOver, found] at hd
    rcases mem_place.1 hd with ⟨old, _, own, rfl⟩ | ⟨hd, other⟩
    · simp [Stage.hasLock, own]
    · have waits := ((queued d hd).1 inLine).2
      simp [waits, Stage.hasLock, Ne.symm other]

/-- Who unlocks was the first of the line, and the next one comes to the front. -/
theorem Lined.unlock (h : Lined key (id :: rest) f) (own : f.stage? id = some .owning) :
    Lined key rest (f.unlock id) := by
  have orderly := h.toOrderly.unlock id
  obtain ⟨c, hc, _, _, found⟩ := claimAt?_of_stage? own
  have filed := h.toFiled.place id .leaving
  have some : f.claims ≠ [] := List.ne_nil_of_mem hc
  simp only [Flight.unlock, found] at orderly ⊢
  refine ⟨orderly, wanted_handOver (wanted_place h.wanted) _, .inr ⟨?_, ?_⟩, ?_, ?_⟩
  · exact claims_handOver_ne_nil (by simpa [Flight.place] using some) _
  · rw [slots_handOver]
    exact (h.file.resolve_left fun none => some none.2).2
  · rw [line_handOver filed, h.line_of_leaving]
  · rw [← h.line_of_leaving]
    exact front_handOver (h.queued_of_leaving hc)

/-- Who unlocks is about to go; of the others at most one is granted what it waits for. -/
theorem Lined.stage?_unlock (h : Lined key names f) (own : f.stage? id = some .owning)
    (other : String) :
    (f.unlock id).stage? other = (if other = id then some .leaving else f.stage? other) ∨
      other ≠ id ∧ f.stage? other = some .queued ∧ (f.unlock id).stage? other = some .granted := by
  obtain ⟨c, hc, _, _, found⟩ := claimAt?_of_stage? own
  have left : (f.place id .leaving).stage? other =
      if other = id then some .leaving else f.stage? other := by
    rw [stage?_place, own, Option.map_some]
  simp only [Flight.unlock, found]
  rw [← left]
  refine ((h.toFiled.place id .leaving).stage?_handOver c.slot other).imp_right ?_
  rintro ⟨queued, granted⟩
  rw [left] at queued
  split at queued
  · cases queued
  · rename_i apart
    exact ⟨apart, queued, granted⟩

theorem eq_singleton_of_nodup {α : Type} {l : List α} {a : α} (nodup : l.Nodup)
    (only : ∀ x, x ∈ l ↔ x = a) : l = [a] := by
  refine List.perm_singleton.1 ((List.perm_ext_iff_of_nodup nodup (List.nodup_singleton a)).2 ?_)
  simpa using only

theorem Filed.claims_eq_singleton (h : Filed f) (hc : c ∈ f.claims)
    (only : ∀ d ∈ f.claims, d.id = c.id) : f.claims = [c] := by
  refine eq_singleton_of_nodup (List.Nodup.of_map _ h.ids) fun d => ⟨fun hd => ?_, fun same => ?_⟩
  · exact h.eq_of_id hd hc (only d hd)
  · exact same ▸ hc

/-- A claim on a key without others is referred to by the file and by itself. -/
theorem Lined.references_eq_two (h : Lined key names f) (hc : c ∈ f.claims)
    (only : ∀ d ∈ f.claims, d.id = c.id) (leaving : c.stage = .leaving)
    (file : f.slots = [(key, slot)]) : f.references c.slot = 2 := by
  have own := h.filed c hc
  rw [file, h.wanted c hc, Catalog.find?, if_pos rfl] at own
  rw [references, file, h.claims_eq_singleton hc only]
  simp [Option.some.inj own, leaving, Stage.references]

/-- Who goes takes the key out of the file if nobody else is there. -/
theorem Lined.forget (h : Lined key names f) (own : f.stage? id = some .leaving) :
    Lined key names (f.forget id) := by
  have orderly := h.toOrderly.forget id
  obtain ⟨c, hc, rfl, here, found⟩ := claimAt?_of_stage? own
  have some : f.claims ≠ [] := List.ne_nil_of_mem hc
  obtain ⟨slot, file⟩ := (h.file.resolve_left fun none => some none.2).2
  simp only [Flight.forget, found] at orderly ⊢
  refine ⟨orderly, fun d hd => h.wanted d (mem_withdraw.1 hd).1, ?_, ?_, fun d hd =>
    h.front d (mem_withdraw.1 hd).1⟩
  -- The file lets go of the key if it counts two references, which is when nobody else is there.
  · by_cases only : ∀ d ∈ f.claims, d.id = c.id
    · left
      rw [if_pos (h.references_eq_two hc only here file), file, h.wanted c hc]
      refine ⟨by simp [Catalog.erase], ?_⟩
      rw [Flight.withdraw, List.filter_eq_nil_iff]
      simpa using only
    · right
      push Not at only
      obtain ⟨d, hd, other⟩ := only
      have more : f.references c.slot ≠ 2 := fun two =>
        other (congrArg Claim.id (h.alone_of_references hc hd two (h.slot_eq hd hc)))
      rw [if_neg more]
      exact ⟨List.ne_nil_of_mem (mem_withdraw.2 ⟨hd, other⟩), slot, file⟩
  · refine (line_withdraw c.id f).trans ?_
    rw [← h.order, List.filter_eq_self]
    intro id mem
    refine decide_eq_true ?_
    rintro rfl
    rw [h.mem_line_iff hc, here] at mem
    cases mem

theorem Lined.stage?_forget (own : f.stage? id = some .leaving) (other : String) :
    (f.forget id).stage? other = if other = id then none else f.stage? other := by
  obtain ⟨c, hc, _, _, found⟩ := claimAt?_of_stage? own
  simp only [Flight.forget, found]
  exact stage?_withdraw id other f

/-! ## When everybody moves who can -/

/-- Once everybody has noticed what happened, who was handed the lock owns it. -/
theorem stage?_settle (id : String) (f : Flight) :
    f.settle.stage? id =
      (f.stage? id).map fun stage => if stage = .granted then .owning else stage := by
  have keeps : (fun c : Claim => decide (c.id = id)) ∘
      (fun c => if c.stage = .granted then { c with stage := .owning } else c) =
      fun c => decide (c.id = id) := by
    funext c
    by_cases granted : c.stage = .granted <;> simp [granted]
  rw [stage?, stage?, claim?, claim?, settle, List.find?_map, keeps]
  cases f.claims.find? fun c => decide (c.id = id) with
  | none => rfl
  | some c => by_cases granted : c.stage = .granted <;> simp [granted]

/-- Where nobody was handed the lock there is nothing to notice. -/
theorem settle_eq_self (noticed : ∀ c ∈ f.claims, c.stage ≠ .granted) : f.settle = f := by
  have same : f.claims.map (fun c => if c.stage = .granted then { c with stage := .owning } else c) =
      f.claims := by
    refine (List.map_congr_left fun c hc => ?_).trans (List.map_id _)
    exact if_neg (noticed c hc)
  rw [settle, same]

/-- Nobody but the first in line can have been handed a lock. -/
theorem Lined.settle_eq_run (h : Lined key (id :: rest) f) : f.settle = f.run id := by
  have first {c : Claim} (hc : c ∈ f.claims) (granted : c.stage = .granted) : c.id = id := by
    have lock : c.stage.hasLock = true := by rw [granted]; rfl
    exact (Option.some.inj (h.head?_of_lock (h.stage?_eq hc) lock)).symm
  rcases h.lock_of_head with granted | owning
  · obtain ⟨c, hc, rfl, here, found⟩ := claimAt?_of_stage? granted
    simp only [Flight.run, found, settle]
    congr 1
    refine List.map_congr_left fun d hd => ?_
    by_cases own : d.id = c.id
    · rw [h.eq_of_id hd hc own, if_pos here, if_pos rfl]
    · rw [if_neg fun granted => own (first hd granted), if_neg own]
  · obtain ⟨c, hc, rfl, here, _⟩ := claimAt?_of_stage? owning
    rw [run_of_owning owning]
    refine settle_eq_self fun d hd granted => ?_
    rw [h.eq_of_id hd hc (first hd granted), here] at granted
    cases granted

/-- A line in which everybody waits or works, and nobody has missed that it is its turn. -/
structure Staffed (key : String) (names : List String) (f : Flight) : Prop
    extends Lined key names f where
  working : ∀ id stage, f.stage? id = some stage → stage = .queued ∨ stage = .owning

theorem Staffed.absent (h : Staffed key names f) (new : id ∉ names) : f.stage? id = none := by
  cases found : f.stage? id with
  | none => rfl
  | some stage =>
    obtain ⟨c, hc, rfl, rfl, _⟩ := claimAt?_of_stage? found
    refine (new ?_).elim
    rw [← h.order, h.mem_line_iff hc]
    rcases h.working c.id c.stage found with queued | owning
    · rw [queued]
      rfl
    · rw [owning]
      rfl

/-- The first in line owns the lock. -/
theorem Staffed.owning (h : Staffed key (id :: rest) f) : f.stage? id = some .owning := by
  refine h.lock_of_head.resolve_left fun granted => ?_
  rcases h.working id .granted granted with queued | owning
  · cases queued
  · cases owning

theorem Staffed.leaving_of_unlock (h : Staffed key (id :: rest) f) :
    (f.unlock id).stage? id = some .leaving :=
  ((h.stage?_unlock h.owning id).resolve_right fun granted => granted.1 rfl).trans (if_pos rfl)

/-- Somebody comes and gets in line. -/
theorem Staffed.acquire (h : Staffed key names f) (new : id ∉ names) :
    f.acquire id key = (f.arrive id key).join id ∧
      Staffed key (names ++ [id]) (f.acquire id key) := by
  have absent := h.absent new
  have arrived : (f.arrive id key).stage? id = some .arrived :=
    (h.stage?_arrive absent id).trans (if_pos rfl)
  have lined := (h.arrive absent).join arrived
  have working (other : String) (stage : Stage)
      (found : ((f.arrive id key).join id).stage? other = some stage) :
      stage = .queued ∨ stage = .owning := by
    rw [(h.arrive absent).stage?_join arrived] at found
    split at found
    · obtain rfl := Option.some.inj found
      cases names.isEmpty
      · exact .inl rfl
      · exact .inr rfl
    · rename_i apart
      rw [h.stage?_arrive absent, if_neg apart] at found
      exact h.working other stage found
  -- Nobody was handed the lock, so nobody has anything to notice.
  have settled : f.acquire id key = (f.arrive id key).join id := by
    refine settle_eq_self fun c hc granted => ?_
    rcases working c.id c.stage (lined.stage?_eq hc) with queued | owning
    · cases granted.symm.trans queued
    · cases granted.symm.trans owning
  rw [settled]
  exact ⟨rfl, lined, working⟩

/-- The first in line goes, and the next one notices. -/
theorem Staffed.release (h : Staffed key (id :: rest) f) :
    f.release id = rest.head?.elim ((f.unlock id).forget id) ((f.unlock id).forget id).run ∧
      Staffed key rest (f.release id) := by
  have leaving := h.leaving_of_unlock
  have lined : Lined key rest ((f.unlock id).forget id) := (h.unlock h.owning).forget leaving
  -- Whoever is left waits, owns the lock, or was just handed it.
  have inLine (other : String) (stage : Stage)
      (found : ((f.unlock id).forget id).stage? other = some stage) :
      stage = .queued ∨ stage = .granted ∨ stage = .owning := by
    rw [Lined.stage?_forget leaving] at found
    split at found
    · cases found
    · rename_i apart
      rcases h.stage?_unlock h.owning other with same | ⟨_, _, granted⟩
      · rw [same, if_neg apart] at found
        exact (h.working other stage found).imp_right .inr
      · obtain rfl := Option.some.inj (granted.symm.trans found)
        exact .inr (.inl rfl)
  -- Who was handed the lock owns it as soon as the flight has settled.
  have working (other : String) (stage : Stage) (found : (f.release id).stage? other = some stage) :
      stage = .queued ∨ stage = .owning := by
    obtain ⟨before, earlier, rfl⟩ :=
      Option.map_eq_some_iff.1 ((stage?_settle other _).symm.trans found)
    rcases inLine other before earlier with rfl | rfl | rfl
    · exact .inl rfl
    · exact .inr rfl
    · exact .inr rfl
  cases rest with
  | nil =>
    have settled : f.release id = (f.unlock id).forget id := by
      refine settle_eq_self fun c hc granted => ?_
      have lock : c.stage.hasLock = true := by rw [granted]; rfl
      cases lined.head?_of_lock (lined.stage?_eq hc) lock
    exact ⟨settled, settled ▸ lined, working⟩
  | cons next others =>
    have settled : f.release id = ((f.unlock id).forget id).run next := lined.settle_eq_run
    exact ⟨settled, settled ▸ (lined.run lined.lock_of_head).1, working⟩

end Flight

end GrantCache
